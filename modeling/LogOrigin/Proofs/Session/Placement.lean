import LogOrigin.Proofs.Session.Frame
import LogOrigin.Proofs.Session.Inline

-- The tree that is shown for a record stands at the origin of the record, however this origin has
-- been found and whatever tree the record had before.

namespace LogOrigin

open Session

theorem RecordStore.lines_set {s : RecordStore} {id : Nat} {r r' : Record} (h : s.get id = .ok r)
    (hr : r'.raw = r.raw) : (s.set id r').lines = s.lines := by
  have hl : lineOf r' = lineOf r := by rw [lineOf, lineOf, hr]
  have ⟨hi, hm⟩ := List.getElem?_eq_some_iff.mp <| get_eq_ok.mp h
  have hi : id < (s.records.map lineOf).length := by simpa using hi
  have hs : (s.records.map lineOf)[id] = lineOf r := by rw [List.getElem_map, hm]
  rw [lines, lines, set, List.map_set, hl, ← hs, List.set_getElem_self]

namespace Session

variable {σ : Type} {s t u : Session σ} {fs : Files} {id : Nat} {l : Location} {n : CallerNode}
variable {file : FilePath} {line : Nat} {r : Record} {e : Failure} {ctx : ExpansionContext}

-- Where the tree of a record belongs: the place of its origin in the repository.
def place? (s : Session σ) (fs : Files) (id : Nat) : Option (FilePath × Nat) :=
  (s.location? id).bind fun l =>
    (Hint.translate? fs s.resolver.root l.file).map fun file => (file, l.line)

section Locating

theorem onlyLocates_refl (s : Session σ) (id : Nat) : OnlyLocates s s id where
  located r hr := ⟨r.location, hr⟩
  others _ _   := rfl
  size         := rfl
  cache        := rfl
  memory       := rfl
  generation   := rfl

theorem onlyLocates_location (s : Session σ) (fs : Files) (id : Nat) :
    OnlyLocates s (s.location fs id).2 id := by
  obtain h | h := s.location_cases fs id
  all_goals rw [h]
  case inl => exact onlyLocates_refl s id
  case inr =>
    obtain h | ⟨r, hr, h⟩ := s.locate_cases fs id
    all_goals rw [h]
    case inl => exact onlyLocates_refl s id
    case inr => exact onlyLocates_keep hr rfl rfl rfl rfl

-- The origin of a record is no part of the context in which its callers are ranked.
theorem context_location (s : Session σ) (fs : Files) (id : Nat) :
    (s.location fs id).2.context id = s.context id := by
  obtain h | h := s.location_cases fs id
  all_goals rw [h]
  obtain h | ⟨r, hr, h⟩ := s.locate_cases fs id
  all_goals rw [h]
  obtain ⟨l, hk⟩ := Resolver.exists_keep r (s.resolver.resolve fs r false).1
  have hg := get_setRecord hr { r with location := l }
  have hl : (s.setRecord id { r with location := l }).store.lines = s.store.lines :=
    RecordStore.lines_set hr rfl
  rw [hk]
  show (s.setRecord id { r with location := l }).context id = s.context id
  unfold context
  rw [hg, hr, hl]
  rfl

-- Why the origin of a record is not known: there is no such record, nothing has been found, or the
-- repository is gone.
theorem location_error (h : s.location fs id = (.error e, u)) :
    u.location? id = none ∧
    (s.store.get id = .error e ∨ e = .unresolved id ∨
      (s.locate fs id).1 = .error e ∧ e = .file (.missingRoot s.resolver.root)) := by
  unfold location at h
  split at h
  case h_1 e' he =>
    cases h
    refine ⟨?_, .inl he⟩
    cases hr : s.store.records[id]?
    case none   => simp [location?, hr]
    case some r => cases he.symm.trans <| RecordStore.get_eq_ok.mpr hr
  case h_2 r hr  =>
    split at h
    case h_1      => cases h
    case h_2 hl =>
      have kept (result : Except Failure Resolution) (resolver : Resolver)
          (hn : Resolver.keep r result = r) :
          ((s.setRecord id (Resolver.keep r result)).withResolver resolver).location? id = none := by
        have hg := get_setRecord (s := s) hr r
        rw [hn]
        exact (location?_of_get (s := (s.setRecord id r).withResolver resolver) hg).trans hl
      have hr' := s.resolver.resolve_live fs r
      rw [locate_eq fs hr] at h ⊢
      obtain ⟨o, ho⟩ | ho | ho := hr'
      all_goals
        simp only [ho] at h ⊢
        cases h
      · exact ⟨kept _ _ rfl, .inr <| .inl rfl⟩
      · exact ⟨kept _ _ rfl, .inr <| .inr ⟨rfl, rfl⟩⟩

end Locating

section Listing

theorem callers_unlocated (h : s.location fs id = (.error e, u)) :
    s.callers fs id = (.error e, u) := by
  simp [callers, h]

theorem callers_elsewhere (h : s.location fs id = (.ok l, u))
    (hf : Hint.translate? fs u.resolver.root l.file = none) :
    s.callers fs id = (.error (.unresolved id), u) := by
  simp [callers, h, hf]

theorem callers_located (h : s.location fs id = (.ok l, u))
    (hf : Hint.translate? fs u.resolver.root l.file = some file) :
    s.callers fs id = u.treeAt fs id file l.line := by
  simp [callers, h, hf]

theorem treeAt_kept (ht : s.tree? id = some n) (ha : isTreeAt file line n = true) :
    s.treeAt fs id file line = (.ok n, s) := by
  obtain ⟨r, hr⟩ := exists_of_tree? ht
  rw [tree?_of_get hr] at ht
  simp [treeAt, hr, ht, Option.filter, ha]

theorem treeAt_built (hr : s.store.get id = .ok r) (hc : s.context id = .ok ctx)
    (hn : ∀ m, s.tree? id = some m → isTreeAt file line m = false) :
    s.treeAt fs id file line =
      let x := s.expandNode fs ctx (.root file line)
      (.ok x.1, x.2.setRecord id { r with callers := some x.1 }) := by
  have hf : r.callers.filter (isTreeAt file line) = none := by
    rw [tree?_of_get hr] at hn
    simpa [Option.filter_eq_none_iff] using hn
  simp [treeAt, hr, hf, hc]

theorem place?_of_error (h : s.location fs id = (.error e, u)) : u.place? fs id = none := by
  simp [place?, (location_error h).1]

theorem place?_located (h : s.location fs id = (.ok l, u)) :
    u.place? fs id =
      (Hint.translate? fs u.resolver.root l.file).map fun file => (file, l.line) := by
  obtain ⟨r, hr, hl⟩ := location_ok h
  simp [place?, location?_of_get hr, hl]

end Listing

-- The tree of a record is shown at the place where it belongs. If the record had a tree at this
-- place this is the one, and nobody is asked about it. Otherwise it is a new one, whose root has been
-- expanded in the context of the record.
structure Placed (s : Session σ) (fs : Files) (id : Nat) (n : CallerNode) (t : Session σ)
    (asked : List Oracle.Call) (file : FilePath) (line : Nat) : Prop where
  place : t.place? fs id = some (file, line)
  shown : isTreeAt file line n = true
  tree  : t.tree? id = some n
  kept  : ∀ m, s.tree? id = some m → isTreeAt file line m = true →
    n = m ∧ asked = [] ∧ t.surroundings = { s.surroundings with resolver := t.resolver }
  built : (∀ m, s.tree? id = some m → isTreeAt file line m = false) →
    let w := { s.surroundings with resolver := (s.location fs id).2.resolver }
    ∃ ctx, s.context id = .ok ctx ∧
      (n, t.surroundings) =
        Expansion.expand s.advisers s.settings.callers fs ctx false (.root file line) w ∧
      asked = Expansion.calls s.advisers s.settings.callers fs ctx false (.root file line) w ∧
      n.isExpanded = true

-- There is no such place, and nothing is shown.
structure Unplaced (s : Session σ) (fs : Files) (id : Nat) (e : Failure) (t : Session σ) :
    Prop where
  place : t.place? fs id = none
  cause : s.store.get id = .error e ∨ e = .unresolved id ∨
    (s.locate fs id).1 = .error e ∧ e = .file (.missingRoot s.resolver.root)
  tree  : t.tree? id = s.tree? id
  cache : t.surroundings.cache = s.surroundings.cache

section Outcomes

variable (h : s.location fs id = (.ok l, u))
variable (hf : Hint.translate? fs u.resolver.root l.file = some file)

include h hf

theorem placed_kept (hn : s.tree? id = some n) (ha : isTreeAt file l.line n = true) :
    s.callers fs id = (.ok n, u) ∧ Placed s fs id n u
      ((s.withLog []).callers fs id).2.surroundings.memory.2 file l.line := by
  have tree := s.tree?_location fs id id
  have surroundings := s.location_surroundings fs id
  rw [h] at tree surroundings
  have hu : u.tree? id = some n := tree.trans hn
  have hw : (s.withLog []).location fs id = (.ok l, u.withLog []) := by
    rw [location_withLog, h]
  have logged : (s.withLog []).callers fs id = (.ok n, u.withLog []) :=
    (callers_located hw hf).trans <| treeAt_kept hu ha
  refine ⟨(callers_located h hf).trans <| treeAt_kept hu ha, ?place, ha, hu, ?kept, ?built⟩
  case place => rw [place?_located h, hf, Option.map_some]
  case kept  =>
    intro m hm _
    obtain rfl : n = m := Option.some.inj <| hn.symm.trans hm
    exact ⟨rfl, by rw [logged]; rfl, surroundings⟩
  case built =>
    intro none
    simp [none n hn] at ha

theorem placed_built (hc : s.surroundings.cache.Settled)
    (hn : ∀ m, s.tree? id = some m → isTreeAt file l.line m = false) :
    ∃ n t, s.callers fs id = (.ok n, t) ∧ (∀ i, i ≠ id → t.store.get i = u.store.get i) ∧
      Placed s fs id n t ((s.withLog []).callers fs id).2.surroundings.memory.2 file l.line := by
  obtain ⟨r, hr, hl⟩ := location_ok h
  obtain ⟨ctx, hx⟩ : ∃ ctx, u.context id = .ok ctx := by simp [context, hr]
  have tree := s.tree?_location fs id id
  have surroundings := s.location_surroundings fs id
  have setup := s.same_location fs id
  have context := s.context_location fs id
  rw [h] at tree surroundings setup context
  have hu : ∀ m, u.tree? id = some m → isTreeAt file l.line m = false := fun m hm =>
    hn m <| tree.symm.trans hm
  have hw : (s.withLog []).location fs id = (.ok l, u.withLog []) := by
    rw [location_withLog, h]
  have listed : s.callers fs id = _ := (callers_located h hf).trans <| treeAt_built hr hx hu
  have logged : (s.withLog []).callers fs id = _ :=
    (callers_located hw hf).trans <| treeAt_built (s := u.withLog []) hr hx hu
  obtain ⟨n, v, hv⟩ : ∃ n v, u.expandNode fs ctx (.root file l.line) = (n, v) := ⟨_, _, rfl⟩
  obtain ⟨hi, hs, hp⟩ := expandNode_eq hv
  have expanded : (n, v.surroundings) = Expansion.expand u.advisers u.settings.callers fs ctx false
      (.root file l.line) u.surroundings := by
    have hn := congrArg Prod.fst hv
    have hw := congrArg (·.2.surroundings) hv
    exact Prod.ext hn.symm hw.symm
  have hg : v.store.get id = .ok r := hs ▸ hr
  have hg' := get_setRecord hg { r with callers := some n }
  rw [hv] at listed
  refine ⟨n, v.setRecord id { r with callers := some n }, listed, ?others, ?place, ?shown, ?tree,
    ?kept, ?built⟩
  case others => exact fun i hne => (RecordStore.get_set_ne _ hne).trans <| hs ▸ rfl
  case place  =>
    have hr : (v.setRecord id { r with callers := some n }).resolver.root = u.resolver.root := hp
    rw [place?, location?_of_get hg', hr]
    simp [hl, hf]
  case shown  =>
    rw [isTreeAt, hi]
    simp [CallerNode.root, CallerNode.ofInfo, CallerNode.info, FilePath.same_refl]
  case tree   => exact tree?_setRecord_self hg _
  case kept   =>
    intro m hm ha
    simp [hn m hm] at ha
  case built  =>
    intro _ w
    have hw : w = u.surroundings := by
      rw [surroundings]
      simp only [w, h]
    rw [← setup.advisers, ← setup.settings, hw]
    refine ⟨ctx, context ▸ hx, expanded, by rw [logged]; rfl, ?_⟩
    have hc : u.surroundings.cache.Settled := by rwa [surroundings]
    exact (congrArg (·.1.isExpanded) expanded).trans <| Expansion.isExpanded_expand _ _ fs ctx _ hc

end Outcomes

theorem unplaced_of_error (h : s.location fs id = (.error e, u)) :
    s.callers fs id = (.error e, u) ∧ Unplaced s fs id e u := by
  have tree := s.tree?_location fs id id
  have cache := (s.onlyLocates_location fs id).cache
  rw [h] at tree cache
  exact ⟨callers_unlocated h, place?_of_error h, (location_error h).2, tree, cache⟩

theorem unplaced_elsewhere (h : s.location fs id = (.ok l, u))
    (hf : Hint.translate? fs u.resolver.root l.file = none) :
    s.callers fs id = (.error (.unresolved id), u) ∧ Unplaced s fs id (.unresolved id) u := by
  have tree := s.tree?_location fs id id
  have cache := (s.onlyLocates_location fs id).cache
  rw [h] at tree cache
  have place : u.place? fs id = none := by rw [place?_located h, hf, Option.map_none]
  exact ⟨callers_elsewhere h hf, place, .inr <| .inl rfl, tree, cache⟩

-- In all cases only the record itself is touched.
theorem callers_outcome (hc : s.surroundings.cache.Settled) (fs : Files) (id : Nat) :
    ∃ answer t, s.callers fs id = (answer, t) ∧ (∀ i, i ≠ id → t.store.get i = s.store.get i) ∧
      (∀ n, answer = .ok n → ∃ file line, Placed s fs id n t
        ((s.withLog []).callers fs id).2.surroundings.memory.2 file line) ∧
      ∀ e, answer = .error e → Unplaced s fs id e t := by
  have others := (s.onlyLocates_location fs id).others
  rcases hl : s.location fs id with ⟨_ | l, u⟩
  all_goals rw [hl] at others
  case error e =>
    obtain ⟨hx, x⟩ := unplaced_of_error hl
    refine ⟨_, u, hx, others, nofun, ?_⟩
    rintro _ ⟨⟩
    exact x
  case ok      =>
    cases hf : Hint.translate? fs u.resolver.root l.file
    case none      =>
      obtain ⟨hx, x⟩ := unplaced_elsewhere hl hf
      refine ⟨_, u, hx, others, nofun, ?_⟩
      rintro _ ⟨⟩
      exact x
    case some file =>
      by_cases hk : ∃ m, s.tree? id = some m ∧ isTreeAt file l.line m = true
      case pos =>
        obtain ⟨m, hm, ha⟩ := hk
        obtain ⟨hx, x⟩ := placed_kept hl hf hm ha
        refine ⟨_, u, hx, others, ?_, nofun⟩
        rintro _ ⟨⟩
        exact ⟨file, l.line, x⟩
      case neg =>
        have hn : ∀ m, s.tree? id = some m → isTreeAt file l.line m = false := fun m hm =>
          Bool.eq_false_iff.mpr fun ha => hk ⟨m, hm, ha⟩
        obtain ⟨n, t, hx, ho, x⟩ := placed_built hl hf hc hn
        refine ⟨_, t, hx, fun i hi => (ho i hi).trans <| others i hi, ?_, nofun⟩
        rintro _ ⟨⟩
        exact ⟨file, l.line, x⟩

end Session

namespace SharedSession

variable {σ : Type} {x : SharedSession σ} {h : History}

-- Whatever has happened to a session, the callers of a record are shown at the place where the
-- record belongs by then. The tree that the record had is kept if it stands at this place, with all
-- that has been expanded in it, and nobody is asked; if not it is replaced by a new one, expanded in
-- the context of the record. If there is no such place nothing is shown, and neither the tree of the
-- record nor what is known about callers changes. The other records stay as they are in any case.
theorem callers_at_place (r : Reachable h x) (fs : Files) (id : Nat) :
    let s := x.session
    let answer := (s.callers fs id).1
    let t := (s.callers fs id).2
    let asked := ((s.withLog []).callers fs id).2.surroundings.memory.2
    (∀ n, answer = .ok n → ∃ file line, Session.Placed s fs id n t asked file line) ∧
    (∀ e, answer = .error e → Session.Unplaced s fs id e t) ∧
    ∀ i, i ≠ id → t.store.get i = s.store.get i := by
  intro s answer t asked
  obtain ⟨answer', t', hx, others, placed, unplaced⟩ :=
    Session.callers_outcome r.calm.settled fs id
  have ha : answer = answer' := congrArg Prod.fst hx
  have ht : t = t' := congrArg Prod.snd hx
  rw [ha, ht]
  exact ⟨placed, unplaced, others⟩

-- A caller has been expanded before the callers are listed again. The tree with this expansion is
-- kept, also when it cannot be shown because the file is gone.
theorem callers_at_place_kept :
    let s := (listed.expand paired.files 0 [0]).2
    let gone : Files := ⟨.dir [], []⟩
    ∃ m, s.tree? 0 = some m ∧ (m.descendant? [0]).any (·.isExpanded) ∧
      (s.callers paired.files 0).1 = .ok m ∧
      ((s.withLog []).callers paired.files 0).2.surroundings.memory.2 = [] ∧
      (s.callers gone 0).1.toOption.isNone ∧ (s.callers gone 0).2.tree? 0 = some m := by
  intro s gone
  have r : Reachable _ ⟨s, []⟩ := reachable_listed.step <| .expand paired.files 0 [0]
  have before : (s.tree? 0).any (fun m => (m.descendant? [0]).any (·.isExpanded) &&
      Session.isTreeAt ⟨"./a.b".toList⟩ 5 m) = true := by decide +kernel
  obtain ⟨m, hm, hx⟩ := (Option.any_eq_true _ _).mp before
  obtain ⟨hx, hat⟩ := Bool.and_eq_true_iff.mp hx
  have place : (s.callers paired.files 0).2.place? paired.files 0 =
    some (⟨"./a.b".toList⟩, 5) := by decide +kernel
  obtain ⟨placed, unplaced, _⟩ := callers_at_place r paired.files 0
  obtain ⟨_, unplaced', _⟩ := callers_at_place r gone 0
  refine ⟨m, hm, hx, ?_⟩
  cases hn : (s.callers paired.files 0).1
  case error e => cases place.symm.trans (unplaced e hn).place
  case ok n    =>
    obtain ⟨file, line, p⟩ := placed n hn
    obtain ⟨rfl, rfl⟩ := Prod.mk.inj <| Option.some.inj <| place.symm.trans p.place
    obtain ⟨rfl, asked, _⟩ := p.kept m hm hat
    cases he : (s.callers gone 0).1
    case ok n    =>
      have hg : (s.callers gone 0).1.toOption.isNone = true := by decide +kernel
      simp [he, Except.toOption] at hg
    case error e => exact ⟨rfl, asked, rfl, (unplaced' e he).tree.trans hm⟩

end SharedSession

end LogOrigin
