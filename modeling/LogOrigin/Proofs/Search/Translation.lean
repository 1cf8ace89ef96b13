import LogOrigin.Proofs.Search.Existence
import LogOrigin.Proofs.Search.Stages
import LogOrigin.Proofs.Session.Operations

-- What the path of a file in a repository is translated to. It leads back to the file if the root is
-- absolute or is the directory from which relative paths start. A path inside any other root is looked
-- for in the root once more.

namespace LogOrigin

namespace FilePath

variable {p : FilePath}

-- The paths that name no other directory than the one from which they start.
def IsHere (p : FilePath) : Prop :=
  ∀ c ∈ p.components, c = .current

theorem IsHere.relative (h : p.IsHere) : p.isAbsolute = false := by
  cases ha : p.isAbsolute
  case false => rfl
  case true  =>
    have hc : Component.root ∈ p.components := by simp [components_eq, start, ha]
    cases h _ hc

theorem isHere_iff (h : p.isAbsolute = false) : p.IsHere ↔ p.steps = [] := by
  constructor
  case mp  =>
    refine fun hp => List.eq_nil_iff_forall_not_mem.mpr fun c hc => ?_
    obtain rfl := hp c (components_eq p ▸ List.mem_append_right _ hc)
    rcases mem_steps hc with hc | ⟨_, hc⟩ <;> cases hc
  case mpr =>
    intro hs c hc
    rw [components_eq, hs, List.append_nil, start, h, if_neg Bool.false_ne_true] at hc
    split at hc
    case isTrue  => exact List.mem_singleton.mp hc
    case isFalse => cases hc

theorem IsHere.void (h : p.IsHere) : ∀ s ∈ p.segments, isVoid s := by
  intro s hs
  have hn := (isHere_iff h.relative).mp h
  cases hv : isVoid s
  case true  => rfl
  case false => exact absurd (List.filterMap_eq_nil_iff.mp hn s hs) (ofSegment_ne_none hv)

theorem IsHere.head (h : p.IsHere) (ht : p.text ≠ []) : p.segments.head? = some ['.'] := by
  obtain ⟨s, l, hs⟩ : ∃ s l, p.segments = s :: l :=
    List.exists_cons_of_ne_nil (Text.splitOn_ne_nil '/' p.text)
  have hd : p.segments.head? = some s := by rw [hs, List.head?_cons]
  rcases isVoid_iff.mp (h.void s (List.mem_of_mem_head? hd)) with rfl | rfl
  case inl => exact absurd (text_of_head_nil h.relative hd) ht
  case inr => exact hd

theorem IsInner.isTrimmed {fs : Files} {root : FilePath} (h : p.IsInner)
    (hf : fs.isFile (root.join p)) : IsTrimmed p.segments := by
  have hl {s : Text} (hs : p.segments.getLast? = some s) : isVoid s = false :=
    Files.getLast_segments hf (getLast_segments_join h.relative ▸ hs)
  refine ⟨fun s hs => Bool.eq_false_iff.mpr fun hv => ?_, fun s => hl⟩
  rcases isVoid_iff.mp hv with rfl | rfl
  case inl =>
    have hn := segments_of_nil (text_of_head_nil h.relative hs)
    cases hl (s := []) (by rw [hn]; rfl)
  case inr =>
    have hc : Component.current ∈ p.components := by simp [components_eq, start, h.relative, hs]
    obtain ⟨n, hn⟩ := h.names _ hc
    cases hn

theorem IsInner.exists_last (h : p.IsInner) (ht : IsTrimmed p.segments) :
    ∃ l n, p.steps = l ++ [.name n] := by
  obtain ⟨s, m, hs⟩ : ∃ s m, p.segments = s :: m :=
    List.exists_cons_of_ne_nil (Text.splitOn_ne_nil '/' p.text)
  cases hl : p.steps.getLast?
  case none   =>
    have hn := List.filterMap_eq_nil_iff.mp (List.getLast?_eq_none_iff.mp hl) s (by simp [hs])
    exact absurd hn <| ofSegment_ne_none (ht.head s (by rw [hs, List.head?_cons]))
  case some c =>
    obtain ⟨l, hl⟩ := List.getLast?_eq_some_iff.mp hl
    obtain ⟨n, rfl⟩ := h.names c (by simp [← h.steps_eq, hl])
    exact ⟨l, n, hl⟩

variable {q : FilePath}

theorem mem_take_components {dir : FilePath} {c : Component} (hd : dir.components = [c])
    (h : dir.components = q.components.take dir.components.length) : c ∈ q.components :=
  List.mem_of_mem_take <| h ▸ hd ▸ List.mem_singleton_self c

theorem stripBase?_root (h : q.isAbsolute = false) : q.stripBase? .root = none := by
  refine if_neg fun he => ?_
  have hc := mem_take_components (q := q) rfl he
  rw [components_eq, start, h, if_neg Bool.false_ne_true] at hc
  rcases List.mem_append.mp hc with hc | hc
  case inl => split at hc <;> simp at hc
  case inr => rcases mem_steps hc with hc | ⟨_, hc⟩ <;> cases hc

theorem stripBase?_current (h : q.isAbsolute = false) : q.stripBase? .current =
    if q.segments.head? = some ['.'] then
      some ⟨Text.joinWith ['/'] (trimVoid q.segments.tail)⟩
    else none := by
  have hc : q.components = (if q.segments.head? = some ['.'] then [.current] else []) ++ q.steps := by
    rw [components_eq, start, h, if_neg Bool.false_ne_true]
  split
  case isTrue hd  =>
    rw [if_pos hd] at hc
    have ht : FilePath.current.components = q.components.take FilePath.current.components.length := by
      rw [hc]
      rfl
    rw [stripBase?, if_pos ht, dropComponents, hc]
    change some (FilePath.mk (Text.joinWith ['/'] (trimVoid (dropNamed 0 q.segments.tail)))) = _
    rw [dropNamed]
  case isFalse hd =>
    refine if_neg fun he => ?_
    have hm := mem_take_components (q := q) rfl he
    rw [hc, if_neg hd, List.nil_append] at hm
    rcases mem_steps hm with hm | ⟨_, hm⟩ <;> cases hm

end FilePath

namespace Hint

open FilePath

variable {root p q : FilePath}

theorem relative_eq (h : q.isAbsolute = false) : relative q =
    if q.segments.head? = some ['.'] then ⟨Text.joinWith ['/'] (trimVoid q.segments.tail)⟩
    else q := by
  rw [relative, stripBase?_root h, Option.getD_none, stripBase?_current h]
  split <;> rfl

-- The segments that are left lead through the same.
theorem relative_spec (h : q.isAbsolute = false) :
    (relative q).isAbsolute = false ∧ (relative q).steps = q.steps := by
  rw [relative_eq h]
  split
  case isFalse   => exact ⟨h, rfl⟩
  case isTrue hd =>
    obtain ⟨l, hl⟩ := List.head?_eq_some_iff.mp hd
    have hq : q.steps = (trimVoid q.segments.tail).filterMap ofSegment := by
      rw [filterMap_trimVoid, steps, hl, List.tail_cons, List.filterMap_cons_none rfl]
    cases ht : trimVoid q.segments.tail
    case nil      => exact ⟨rfl, by rw [hq, ht]; rfl⟩
    case cons s m =>
      have hs : (⟨Text.joinWith ['/'] (s :: m)⟩ : FilePath).segments = s :: m := by
        refine Text.splitOn_joinWith (List.cons_ne_nil s m) fun t hm => ?_
        exact Text.notMem_of_mem_splitOn <| List.mem_of_mem_tail (mem_of_mem_trimVoid (ht ▸ hm))
      refine ⟨?_, by rw [hq, ht, steps, hs]⟩
      cases ha : (⟨Text.joinWith ['/'] (s :: m)⟩ : FilePath).isAbsolute
      case false => rfl
      case true  =>
        have hn := head_segments_absolute ha
        rw [hs, ← ht] at hn
        cases head_trimVoid hn

-- The dots of the root are all that is taken off.
theorem relative_join (hr : root.IsHere) (hp : p.isAbsolute = false) (ht : IsTrimmed p.segments) :
    relative (root.join p) = p := by
  by_cases hd : root.text = []
  case pos =>
    rw [join_of_nil hd, relative_eq hp, if_neg]
    intro hs
    cases ht.head _ hs
  case neg =>
    obtain ⟨l, hh, hl, hj⟩ := exists_segments_join hd
    have hv : ∀ s ∈ l, isVoid s := by
      intro s hs
      refine hr.void s ?_
      rcases hl with hl | hl <;> rw [hl]
      case inl => exact hs
      case inr => exact List.mem_append_left _ hs
    obtain ⟨m, rfl⟩ := List.head?_eq_some_iff.mp (hh.trans (hr.head hd))
    have hq : (root.join p).segments = ['.'] :: (m ++ p.segments) := hj p hp
    rw [relative_eq ((isAbsolute_join_eq hd hp).trans hr.relative), hq, List.head?_cons, if_pos rfl,
      List.tail_cons, trimVoid_append (fun s hs => hv s (List.mem_cons_of_mem _ hs)) ht]
    exact congrArg FilePath.mk (Text.joinWith_splitOn '/' p.text)

variable {fs : Files}

theorem translate?_of_relative (ha : q.isAbsolute = false) (hr : root.join (relative q) = q)
    (hf : fs.isFile q) : translate? fs root q = some q := by
  simp [translate?, candidates, ha, hr, dropRepeats, hf]

-- The root is relative and leads through something, and the path ends with a name.
section Elsewhere

variable {l : List Component} {n : Text}
variable (hr : root.isAbsolute = false) (hs : root.steps ≠ [])
variable (hp : p.isAbsolute = false) (hn : p.steps = l ++ [.name n])

include hr hs hp in
theorem isAbsolute_elsewhere : (root.join p).isAbsolute = false := by
  have ht : root.text ≠ [] := fun ht => hs <| by simp [steps, segments_of_nil ht]
  exact (isAbsolute_join_eq ht hp).trans hr

include hr hs hp in
-- What is left of the path leads through the root a second time.
theorem steps_elsewhere : (root.join (relative (root.join p))).steps =
    root.steps ++ (root.steps ++ p.steps) := by
  obtain ⟨ha, hq⟩ := relative_spec (isAbsolute_elsewhere hr hs hp)
  rw [steps_join ha, hq, steps_join hp]

include hn in
theorem steps_last : (root.join ⟨n⟩).steps = root.steps ++ [.name n] := by
  obtain ⟨_, ha, hq⟩ := name_of_mem_steps (p := p) (n := n) (by simp [hn])
  rw [steps_join ha, hq]

include hr hs hp hn in
theorem candidates_elsewhere :
    candidates root (root.join p) = [root.join (relative (root.join p)), root.join ⟨n⟩] := by
  have hj : (root.join p).steps = root.steps ++ (l ++ [.name n]) := by rw [steps_join hp, hn]
  have hf : (root.join p).fileName? = some n := by
    rw [fileName?, components_eq, hj, List.getLast?_append, List.getLast?_append,
      List.getLast?_concat]
    rfl
  have hd : (root.join ⟨n⟩).same (root.join (relative (root.join p))) = false := by
    refine Bool.eq_false_iff.mpr fun he => ?_
    have he := congrArg List.length (steps_of_same he)
    have hl := List.length_pos_iff.mpr hs
    simp only [steps_last hn, steps_elsewhere hr hs hp, hn, List.length_append,
      List.length_singleton] at he
    omega
  simp [candidates, isAbsolute_elsewhere hr hs hp, hf, dropRepeats, dropRepeats.go, hd]

include hr hs hp hn in
-- Only a path of one name leads back, by its name, and only if nothing is found before.
theorem translate?_elsewhere (ht : IsTrimmed p.segments) (hf : fs.isFile (root.join p)) :
    (translate? fs root (root.join p) = some (root.join p) ↔
      p.steps.length = 1 ∧ ¬fs.isFile (root.join (relative (root.join p)))) ∧
    ∀ q, translate? fs root (root.join p) = some q → q.same (root.join p) → q = root.join p := by
  have hl := List.length_pos_iff.mpr hs
  have other {q : FilePath} (h : q.steps.length ≠ (root.join p).steps.length) :
      q.same (root.join p) = false :=
    Bool.eq_false_iff.mpr fun he => h <| congrArg List.length (steps_of_same he)
  have again : (root.join (relative (root.join p))).same (root.join p) = false := by
    refine other ?_
    simp only [steps_elsewhere hr hs hp, steps_join hp, List.length_append]
    omega
  have single (h : p.steps.length = 1) : p = ⟨n⟩ := by
    have hl : l = [] := by simpa [hn] using h
    exact eq_name ht <| by rw [hn, hl, List.nil_append]
  have longer (h : p.steps.length ≠ 1) : (root.join ⟨n⟩).same (root.join p) = false := by
    refine other ?_
    simp only [steps_last hn, steps_join hp, List.length_append, List.length_singleton]
    omega
  have different {q : FilePath} (h : q.same (root.join p) = false) : q ≠ root.join p := by
    rintro rfl
    cases (same_refl _).symm.trans h
  rw [translate?, candidates_elsewhere hr hs hp hn, List.find?_cons]
  cases ha : fs.isFile (root.join (relative (root.join p)))
  case true  => simp [different again, again]
  case false =>
    by_cases h : p.steps.length = 1
    case pos =>
      rw [List.find?_cons, ← single h, hf]
      simp [h]
    case neg =>
      have hn := different (longer h)
      cases hb : fs.isFile (root.join ⟨n⟩)
      case true  => simp [hb, h, hn, longer h]
      case false => simp [hb, h]

end Elsewhere

theorem isAbsolute_join_here (hr : root.IsHere) (hp : p.isAbsolute = false) :
    (root.join p).isAbsolute = false := by
  by_cases hd : root.text = []
  case pos => rwa [join_of_nil hd]
  case neg => exact (isAbsolute_join_eq hd hp).trans hr.relative

-- The paths inside a root that are translated to themselves.
def Returns (fs : Files) (root p : FilePath) : Prop :=
  root.isAbsolute ∨ root.IsHere ∨
  p.components.length = 1 ∧ ¬fs.isFile (root.join (relative (root.join p)))

theorem translate?_inner (hp : p.IsInner) (hf : fs.isFile (root.join p)) :
    (translate? fs root (root.join p) = some (root.join p) ↔ Returns fs root p) ∧
    ∀ q, translate? fs root (root.join p) = some q → q.same (root.join p) → q = root.join p := by
  have ht := hp.isTrimmed hf
  have self (h : translate? fs root (root.join p) = some (root.join p))
      (hr : root.isAbsolute ∨ root.IsHere) :
      (translate? fs root (root.join p) = some (root.join p) ↔ Returns fs root p) ∧
      ∀ q, translate? fs root (root.join p) = some q → q.same (root.join p) →
        q = root.join p :=
    ⟨iff_of_true h (hr.elim .inl (.inr <| .inl ·)), fun q hq _ =>
      Option.some.inj (hq.symm.trans h)⟩
  cases hr : root.isAbsolute
  case true  =>
    exact self (translate?_self root (isAbsolute_join hr) hf) (.inl hr)
  case false =>
    by_cases hh : root.IsHere
    case pos =>
      have hj := congrArg root.join (relative_join hh hp.relative ht)
      exact self (translate?_of_relative (isAbsolute_join_here hh hp.relative) hj hf) (.inr hh)
    case neg =>
      have hs : root.steps ≠ [] := fun hs => hh ((isHere_iff hr).mpr hs)
      obtain ⟨l, n, hn⟩ := hp.exists_last ht
      simpa [Returns, hr, hh, hp.steps_eq] using translate?_elsewhere hr hs hp.relative hn ht hf

end Hint

namespace Resolver

variable {r : Resolver} {fs : Files} {record : Record} {cancelled : Bool} {o : Origin}

theorem ofCache?_of_stage (h : (r.resolve fs record cancelled).1 = .ok (.found o))
    (ho : o.stage = .cache) : ofCache? fs r.root record = some o := by
  rcases resolve_found h with h | h | h | ⟨_, _, _, _, rfl⟩
  case inl         => exact h
  case inr.inl     =>
    obtain ⟨_, _, _, _, rfl⟩ := ofHints?_found h
    cases ho
  case inr.inr.inl =>
    obtain ⟨_, _, _, _, hm, _, _⟩ := firstMatch_found trim_needle h
    simpa [ho] using scanned_of_mem_needles hm
  case inr.inr.inr => cases ho

-- All other stages find the source files.
theorem source_of_stage (h : (r.resolve fs record cancelled).1 = .ok (.found o))
    (hc : o.stage ≠ .cache) (hh : o.stage ≠ .hint) :
    ∃ files, (r.sources fs).1 = .ok files ∧ o.file ∈ files := by
  rcases resolve_found h with h | h | h | ⟨files, file, hf, hm, rfl⟩
  case inl         =>
    obtain ⟨_, _, _, _, rfl⟩ := ofCache?_found h
    exact absurd rfl hc
  case inr.inl     =>
    obtain ⟨_, _, _, _, rfl⟩ := ofHints?_found h
    exact absurd rfl hh
  case inr.inr.inl =>
    obtain ⟨files, _, c, hf, _, ho, hb⟩ := firstMatch_found trim_needle h
    rw [ho]
    exact ⟨files, hf, List.mem_of_getElem? hb.file⟩
  case inr.inr.inr => exact ⟨files, hf, hm⟩

theorem locate_cached_iff {l : Location} (hl : record.location = some l) :
    r.locate fs record cancelled = (.ok (.found (.ofLocation .cache l)), record, r) ↔
      Hint.translate? fs r.root l.file = some l.file := by
  constructor
  case mpr => exact fun ht => locate_cached hl ht cancelled
  case mp  =>
    intro h
    have h : (r.resolve fs record cancelled).1 = .ok (.found (.ofLocation .cache l)) :=
      congrArg Prod.fst h
    obtain ⟨l', file, hl', ht, he⟩ := ofCache?_found (ofCache?_of_stage h rfl)
    obtain rfl := Option.some.inj (hl.symm.trans hl')
    rw [ht]
    exact congrArg some (congrArg Origin.file he).symm

end Resolver

namespace Scene

variable {s : Scene} {record : Record} {cancelled : Bool} {o : Origin}

theorem found_inner (hn : s.resolver.files = none) (steps : List Step)
    (h : ((s.run steps).resolver.resolve (s.run steps).files record cancelled).1 =
      .ok (.found o)) (hc : o.stage ≠ .cache) (hh : o.stage ≠ .hint) :
    ∃ p : FilePath, p.IsInner ∧ o.file = s.resolver.root.join p := by
  obtain ⟨files, hs, hm⟩ := Resolver.source_of_stage h hc hh
  obtain ⟨earlier, _, _, _, d, hd, rfl⟩ := discovery_of_sources hn hs
  exact (s.same_run earlier).root ▸ Discovery.inner_of_mem (s.run earlier).sound hd hm

end Scene

namespace Session

variable {σ : Type} {s : Session σ} {fs : Files} {id : Nat} {record : Record} {l : Location}

theorem callers_of_translate? {file : FilePath} (hr : s.store.get id = .ok record)
    (hl : record.location = some l)
    (ht : Hint.translate? fs s.resolver.root l.file = some file) :
    ∃ n s', s.callers fs id = (.ok n, s') := by
  have hs : s.location fs id = (.ok l, s) := by simp [location, hr, hl]
  simp only [callers, hs, ht, treeAt, hr]
  split
  case h_1 n _ => exact ⟨n, s, rfl⟩
  case h_2     => simp [context, hr]

theorem callers_unresolved_iff (hr : s.store.get id = .ok record)
    (hl : record.location = some l) :
    (s.callers fs id).1 = .error (.unresolved id) ↔
      Hint.translate? fs s.resolver.root l.file = none := by
  cases ht : Hint.translate? fs s.resolver.root l.file
  case none      => simp [callers, location, hr, hl, ht]
  case some file =>
    obtain ⟨n, s', hc⟩ := callers_of_translate? hr hl ht
    simp [hc]

end Session

-- A file that the resolver of a root finds among the source files lies inside the root. When it is
-- located again it is a hit, and its callers can be listed, if its path returns. Any other path means
-- a different file, or nothing, and then it has no callers.
theorem located_again (root : FilePath) :
    (∀ (s : Scene) steps record cancelled o, s.resolver.files = none → s.resolver.root = root →
      ((s.run steps).resolver.resolve (s.run steps).files record cancelled).1 =
        .ok (.found o) →
      o.stage ≠ .cache → o.stage ≠ .hint → ∃ p : FilePath, p.IsInner ∧ o.file = root.join p) ∧
    ∀ (fs : Files) (p : FilePath), p.IsInner → fs.isFile (root.join p) →
      (Hint.translate? fs root (root.join p) = some (root.join p) ↔ Hint.Returns fs root p) ∧
      (∀ q, Hint.translate? fs root (root.join p) = some q → q.same (root.join p) →
        q = root.join p) ∧
      (∀ (r : Resolver) record line cancelled, r.root = root →
        record.location = some ⟨root.join p, line⟩ →
        (r.locate fs record cancelled =
          (.ok (.found (.ofLocation .cache ⟨root.join p, line⟩)), record, r) ↔
          Hint.Returns fs root p)) ∧
      ∀ (σ : Type) (s : Session σ) id record line, s.resolver.root = root →
        s.store.get id = .ok record → record.location = some ⟨root.join p, line⟩ →
        (Hint.Returns fs root p → ∃ n s', s.callers fs id = (.ok n, s')) ∧
        ((s.callers fs id).1 = .error (.unresolved id) ↔
          Hint.translate? fs root (root.join p) = none) := by
  constructor
  case left =>
    rintro s steps record cancelled o hn rfl h hc hh
    exact s.found_inner hn steps h hc hh
  case right =>
    intro fs p hp hf
    obtain ⟨ht, hq⟩ := Hint.translate?_inner hp hf
    refine ⟨ht, hq, ?_, ?_⟩
    · rintro r record line cancelled rfl hl
      exact (Resolver.locate_cached_iff hl).trans ht
    · rintro σ s id record line rfl hr hl
      exact ⟨fun h => Session.callers_of_translate? hr hl (ht.mpr h),
        Session.callers_unresolved_iff hr hl⟩

-- The root is the directory from which relative paths start. The file is found by a line, the record
-- keeps its place, and the place is a hit, from which the callers are listed.
theorem located_again_here :
    let root : FilePath := ⟨"./".toList⟩
    let settings : SearchSettings := { Settings.default.search with minSearchLen := 1 }
    let names : Scene.Names :=
      [⟨"src".toList, by decide, by decide, by decide, by decide⟩,
        ⟨"a.rs".toList, by decide, by decide, by decide, by decide⟩]
    let steps : List Scene.Step := [.sources, .invalidate, .write names "b".toUTF8]
    let s : Scene := .run ⟨.empty, .empty, .new root settings⟩ steps
    let record (l : Option Location) : Record :=
      ⟨[], .info, ['b'], none, .single Record.rootName [], [], l, none, none⟩
    let l : Location := ⟨⟨"./src/a.rs".toList⟩, 0⟩
    let o : Origin := ⟨l.file, 0, 40, .cleanedMessage⟩
    let session : Session Unit :=
      { Session.offline root .default with store := ⟨[record (some l)]⟩ }
    (s.resolver.resolve s.files (record none) false).1 = .ok (.found o) ∧
    s.resolver.locate s.files (record (some l)) false =
      (.ok (.found (.ofLocation .cache l)), record (some l), s.resolver) ∧
    ∃ n session', session.callers s.files 0 = (.ok n, session') := by
  intro root settings names steps s record l o session
  have ho : (s.resolver.resolve s.files (record none) false).1 = .ok (.found o) :=
    ok_of_toOption <| by decide +kernel
  have hh : root.IsHere := show ∀ c ∈ root.components, c = .current by decide
  have hf : s.files.isFile l.file := by decide +kernel
  have ⟨inner, back⟩ := located_again root
  obtain ⟨p, hp, hj⟩ :=
    inner ⟨.empty, .empty, .new root settings⟩ steps (record none) false o rfl rfl ho nofun nofun
  have hl : l = ⟨root.join p, 0⟩ := congrArg (Location.mk · 0) hj
  have ⟨_, _, hit, callers⟩ := back s.files p hp (hj ▸ hf)
  refine ⟨ho, ?_, (callers Unit session 0 _ 0 rfl rfl (congrArg some hl)).1 (.inr <| .inl hh)⟩
  have hc := (hit s.resolver (record (some l)) 0 false rfl (congrArg some hl)).mpr (.inr <| .inl hh)
  rwa [← hl] at hc

-- The path of a file in another root is looked for in the directory `repo` inside `repo`.
theorem located_again_doubled :
    let root : FilePath := ⟨"repo".toList⟩
    let p : FilePath := ⟨"src/a.rs".toList⟩
    let src : Entry := .dir [("a.rs".toList, .file .empty)]
    let fs : Files := ⟨.dir [("repo".toList, .dir [("src".toList, src)])], []⟩
    p.IsInner ∧ fs.isFile (root.join p) ∧ Hint.translate? fs root (root.join p) = none := by
  intro root p src fs
  have hc : p.components = [.name "src".toList, .name "a.rs".toList] := by decide
  refine ⟨⟨rfl, ?_⟩, by decide +kernel, by decide +kernel⟩
  simp [hc]

end LogOrigin
