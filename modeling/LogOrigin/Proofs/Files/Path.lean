import LogOrigin.FilePath

-- Paths by their segments: what a path leads through, and how this grows when paths are joined.

namespace LogOrigin

namespace Text

variable {sep : Char} {s t : Text}

theorem splitOn_append (sep : Char) (s t : Text) :
    splitOn sep (s ++ sep :: t) = splitOn sep s ++ splitOn sep t := by
  have go (acc : Text) :
      splitOn.go sep acc (s ++ sep :: t) = splitOn.go sep acc s ++ splitOn.go sep [] t := by
    induction s generalizing acc
    case nil         => simp [splitOn.go]
    case cons c s hi =>
      simp only [List.cons_append, splitOn.go]
      split
      case isTrue  => rw [hi, List.cons_append]
      case isFalse => exact hi _
  exact go []

theorem splitOn_of_notMem (h : sep ∉ t) : splitOn sep t = [t] := by
  have go (acc : Text) : splitOn.go sep acc t = [acc.reverse ++ t] := by
    induction t generalizing acc
    case nil         => simp [splitOn.go]
    case cons c t hi =>
      have ⟨hc, ht⟩ := List.ne_and_not_mem_of_not_mem_cons h
      simp [splitOn.go, Ne.symm hc, hi ht]
  exact go []

theorem splitOn_ne_nil (sep : Char) (t : Text) : splitOn sep t ≠ [] := by
  have go (acc : Text) : splitOn.go sep acc t ≠ [] := by
    induction t generalizing acc
    case nil         => simp [splitOn.go]
    case cons c t hi =>
      unfold splitOn.go
      split
      case isTrue  => exact List.cons_ne_nil _ _
      case isFalse => exact hi _
  exact go []

theorem notMem_of_mem_splitOn : s ∈ splitOn sep t → sep ∉ s := by
  have go (acc : Text) (ha : sep ∉ acc) (h : s ∈ splitOn.go sep acc t) :
      sep ∉ s := by
    induction t generalizing acc
    case nil         =>
      obtain rfl := List.mem_singleton.mp h
      simpa using ha
    case cons c t hi =>
      unfold splitOn.go at h
      split at h
      case isTrue     =>
        rcases List.mem_cons.mp h with rfl | h
        case inl => simpa using ha
        case inr => exact hi [] List.not_mem_nil h
      case isFalse hc =>
        exact hi (c :: acc) (List.not_mem_cons_of_ne_of_not_mem (Ne.symm hc) ha) h
  exact go [] List.not_mem_nil

theorem joinWith_cons (sep t : Text) {l : List Text} (h : l ≠ []) :
    joinWith sep (t :: l) = t ++ sep ++ joinWith sep l := by
  cases l
  case nil  => exact absurd rfl h
  case cons => rfl

theorem joinWith_splitOn (sep : Char) (t : Text) : joinWith [sep] (splitOn sep t) = t := by
  have go (acc : Text) : joinWith [sep] (splitOn.go sep acc t) = acc.reverse ++ t := by
    induction t generalizing acc
    case nil         => simp [splitOn.go, joinWith]
    case cons c t hi =>
      unfold splitOn.go
      split
      case isTrue hc =>
        change joinWith [sep] (acc.reverse :: splitOn sep t) = acc.reverse ++ c :: t
        rw [joinWith_cons _ _ (splitOn_ne_nil sep t), splitOn, hi, hc]
        simp
      case isFalse   => simp [hi]
  exact go []

theorem splitOn_joinWith {l : List Text} (hl : l ≠ []) (h : ∀ s ∈ l, sep ∉ s) :
    splitOn sep (joinWith [sep] l) = l := by
  induction l
  case nil         => exact absurd rfl hl
  case cons s l hi =>
    obtain ⟨hs, h⟩ := List.forall_mem_cons.mp h
    cases l
    case nil  => exact splitOn_of_notMem hs
    case cons =>
      have hi := hi (List.cons_ne_nil _ _) h
      rw [joinWith_cons _ _ (List.cons_ne_nil _ _), List.append_assoc, List.singleton_append,
        splitOn_append, hi, splitOn_of_notMem hs, List.singleton_append]

section Tails

variable {α : Type} {sep : α} {f l n r : List α}

-- A list ends with another one that stands behind its last separator, or that is all of it.
inductive IsTail (sep : α) (n : List α) : List α → Prop where
  | whole : IsTail sep n n
  | behind (f : List α) : IsTail sep n (f ++ sep :: n)

theorem IsTail.eq_of_notMem (h : IsTail sep n l) (hl : sep ∉ l) : l = n := by
  cases h
  case whole  => rfl
  case behind => simp at hl

theorem IsTail.eq_of_append (h : IsTail sep n (f ++ sep :: r)) (hn : sep ∉ n) (hr : sep ∉ r) :
    n = r := by
  generalize hl : f ++ sep :: r = l at h
  cases h
  case whole    => simp [← hl] at hn
  case behind k =>
    rcases List.append_eq_append_iff.mp hl with ⟨m, rfl, hm⟩ | ⟨m, rfl, hm⟩
    all_goals cases m
    case inl.nil  => exact (List.cons.inj hm).2.symm
    case inr.nil  => exact (List.cons.inj hm).2
    case inl.cons => simp [(List.cons.inj hm).2] at hr
    case inr.cons => simp [(List.cons.inj hm).2] at hn

end Tails

theorem isTail_joinWith {l : List Text} (h : l.getLast? = some s) :
    IsTail sep s (joinWith [sep] l) := by
  induction l
  case nil         => cases h
  case cons t l hi =>
    cases l
    case nil      =>
      cases h
      exact .whole
    case cons u l =>
      rw [joinWith_cons _ _ (List.cons_ne_nil _ _), List.append_assoc, List.singleton_append]
      generalize joinWith [sep] (u :: l) = k at hi
      cases hi (List.getLast?_cons_cons ▸ h)
      case whole    => exact .behind t
      case behind f => exact List.append_assoc t (sep :: f) (sep :: s) ▸ .behind (t ++ sep :: f)

end Text

namespace FilePath

variable {dir p q : FilePath}

theorem segments_inj (h : p.segments = q.segments) : p = q := by
  have h := congrArg (Text.joinWith ['/']) h
  rw [segments, segments, Text.joinWith_splitOn, Text.joinWith_splitOn] at h
  exact congrArg FilePath.mk h

theorem isVoid_iff {s : Text} : isVoid s ↔ s = [] ∨ s = ['.'] := by
  simp [isVoid]

theorem ofSegment_cases (s : Text) :
    (isVoid s = true ∧ ofSegment s = none) ∨
    (isVoid s = false ∧ (ofSegment s = some .parent ∨ ofSegment s = some (.name s))) := by
  unfold ofSegment
  cases isVoid s
  case true  => exact .inl ⟨rfl, rfl⟩
  case false =>
    rw [if_neg Bool.false_ne_true]
    split
    case isTrue  => exact .inr ⟨rfl, .inl rfl⟩
    case isFalse => exact .inr ⟨rfl, .inr rfl⟩

theorem ofSegment_void {s : Text} (h : isVoid s = true) : ofSegment s = none := by
  simp [ofSegment, h]

@[simp] theorem ofSegment_nil : ofSegment [] = none :=
  rfl

theorem isVoid_of_none {s : Text} (h : ofSegment s = none) : isVoid s = true := by
  rcases ofSegment_cases s with ⟨hv, _⟩ | ⟨_, ho | ho⟩
  case inl     => exact hv
  case inr.inl => cases ho.symm.trans h
  case inr.inr => cases ho.symm.trans h

theorem ofSegment_ne_none {s : Text} (h : isVoid s = false) : ofSegment s ≠ none := by
  intro hn
  cases h.symm.trans (isVoid_of_none hn)

theorem segments_of_nil (h : p.text = []) : p.segments = [[]] := by
  rw [segments, h]
  rfl

theorem join_of_nil (h : dir.text = []) : dir.join p = p := by
  simp [join, h]

-- The directories and names that a path leads through, wherever it starts.
def steps (p : FilePath) : List Component :=
  p.segments.filterMap ofSegment

-- The component that says where a path starts.
def start (p : FilePath) : List Component :=
  if p.isAbsolute then [.root] else if p.segments.head? = some ['.'] then [.current] else []

theorem start_cases (p : FilePath) : p.start = [.root] ∨ p.start = [.current] ∨ p.start = [] := by
  unfold start
  split
  case isTrue  => exact .inl rfl
  case isFalse =>
    split
    case isTrue  => exact .inr <| .inl rfl
    case isFalse => exact .inr <| .inr rfl

theorem head_segments_absolute (h : p.isAbsolute) : p.segments.head? = some [] := by
  obtain ⟨t, ht⟩ := List.head?_eq_some_iff.mp (of_decide_eq_true h)
  rw [segments, ht, show '/' :: t = [] ++ '/' :: t from rfl, Text.splitOn_append]
  rfl

theorem components_eq (p : FilePath) : p.components = p.start ++ p.steps := by
  have ha := @head_segments_absolute p
  unfold components start steps
  split
  case h_1 hs     => exact absurd hs <| Text.splitOn_ne_nil _ _
  case h_2 s l hs =>
    rw [hs] at ha ⊢
    split
    case isTrue h  => simp [Option.some.inj (ha h), ofSegment_void (s := []) rfl]
    case isFalse h =>
      simp only [List.head?_cons, Option.some.injEq]
      split
      case isTrue hd  => simp [hd, ofSegment_void (s := ['.']) rfl]
      case isFalse hd => rfl

theorem mem_steps {c : Component} (h : c ∈ p.steps) : c = .parent ∨ ∃ n, c = .name n := by
  obtain ⟨s, _, hs⟩ := List.mem_filterMap.mp h
  rcases ofSegment_cases s with ⟨_, ho⟩ | ⟨_, ho | ho⟩ <;> cases ho.symm.trans hs
  case inr.inl => exact .inl rfl
  case inr.inr => exact .inr ⟨s, rfl⟩

theorem isAbsolute_of_notMem {t : Text} (h : '/' ∉ t) : (⟨t⟩ : FilePath).isAbsolute = false :=
  decide_eq_false fun hs => h (List.mem_of_mem_head? hs)

theorem segments_of_notMem {t : Text} (h : '/' ∉ t) : (⟨t⟩ : FilePath).segments = [t] :=
  Text.splitOn_of_notMem h

-- A name that a path leads through is a path of its own.
theorem name_of_mem_steps {n : Text} (h : .name n ∈ p.steps) :
    n ∈ p.segments ∧ (⟨n⟩ : FilePath).isAbsolute = false ∧ (⟨n⟩ : FilePath).steps = [.name n] := by
  obtain ⟨s, hm, hs⟩ := List.mem_filterMap.mp h
  obtain rfl : s = n := by
    rcases ofSegment_cases s with ⟨_, ho⟩ | ⟨_, ho | ho⟩ <;> cases ho.symm.trans hs
    rfl
  have hd := Text.notMem_of_mem_splitOn hm
  refine ⟨hm, isAbsolute_of_notMem hd, ?_⟩
  rw [steps, segments_of_notMem hd, List.filterMap_cons_some hs, List.filterMap_nil]

-- Paths that mean the same lead through the same.
theorem steps_of_same (h : p.same q) : p.steps = q.steps := by
  let named (c : Component) : Bool := c != .root && c != .current
  have hf (p : FilePath) : p.components.filter named = p.steps := by
    have hs : p.start.filter named = [] := by
      rcases start_cases p with hs | hs | hs <;> rw [hs] <;> rfl
    rw [components_eq, List.filter_append, hs, List.nil_append, List.filter_eq_self]
    intro c hc
    rcases mem_steps hc with rfl | ⟨_, rfl⟩ <;> rfl
  rw [← hf p, ← hf q, beq_iff_eq.mp h]

-- A trailing slash of the directory, which is a void segment, is used up.
theorem exists_segments_join (h : dir.text ≠ []) :
    ∃ l, l.head? = dir.segments.head? ∧ (dir.segments = l ∨ dir.segments = l ++ [[]]) ∧
      ∀ p : FilePath, p.isAbsolute = false → (dir.join p).segments = l ++ p.segments := by
  have hd : dir.text.isEmpty = false := by simpa using h
  by_cases hs : dir.text.getLast? = some '/'
  case pos =>
    obtain ⟨t, ht⟩ := List.getLast?_eq_some_iff.mp hs
    have hl : dir.segments = Text.splitOn '/' t ++ [[]] := by
      rw [segments, ht, Text.splitOn_append]
      rfl
    refine ⟨Text.splitOn '/' t, ?_, .inr hl, fun p hp => ?_⟩
    · rw [hl, List.head?_append, Option.or_of_isSome]
      simpa using Text.splitOn_ne_nil '/' t
    · rw [join, hp, hd, Bool.or_self, if_neg Bool.false_ne_true, if_pos hs, segments, ht,
        List.append_assoc, List.singleton_append, Text.splitOn_append, segments]
  case neg =>
    refine ⟨dir.segments, rfl, .inl rfl, fun p hp => ?_⟩
    rw [join, hp, hd, Bool.or_self, if_neg Bool.false_ne_true, if_neg hs, segments,
      Text.splitOn_append, segments, segments]

theorem segments_join (ht : dir.text ≠ []) (hl : dir.segments.getLast? ≠ some [])
    (h : p.isAbsolute = false) : (dir.join p).segments = dir.segments ++ p.segments := by
  obtain ⟨l, _, hs | hs, hj⟩ := exists_segments_join ht
  case inl => rw [hj p h, hs]
  case inr => exact absurd (by rw [hs, List.getLast?_concat]) hl

theorem steps_join (h : p.isAbsolute = false) : (dir.join p).steps = dir.steps ++ p.steps := by
  by_cases hd : dir.text = []
  case pos => simp [join_of_nil hd, steps, segments_of_nil hd]
  case neg =>
    obtain ⟨l, _, hl, hj⟩ := exists_segments_join hd
    rw [steps, steps, steps, hj p h, List.filterMap_append]
    rcases hl with hl | hl <;> simp [hl, ofSegment_nil]

theorem isAbsolute_join_eq (hd : dir.text ≠ []) (h : p.isAbsolute = false) :
    (dir.join p).isAbsolute = dir.isAbsolute := by
  obtain ⟨⟨c, t⟩⟩ := dir
  case nil  => exact absurd rfl hd
  case cons =>
    unfold join
    split
    case isTrue ha  => simp [h] at ha
    case isFalse ha => split <;> rfl

theorem getLast_segments_join (h : p.isAbsolute = false) :
    (dir.join p).segments.getLast? = p.segments.getLast? := by
  by_cases hd : dir.text = []
  case pos => rw [join_of_nil hd]
  case neg =>
    obtain ⟨l, _, _, hj⟩ := exists_segments_join hd
    rw [hj p h, List.getLast?_append, Option.or_of_isSome]
    simpa [segments] using Text.splitOn_ne_nil '/' p.text

theorem text_of_head_nil (h : p.isAbsolute = false) (hs : p.segments.head? = some []) :
    p.text = [] := by
  obtain ⟨l, hl⟩ := List.head?_eq_some_iff.mp hs
  have ht : Text.joinWith ['/'] p.segments = p.text := Text.joinWith_splitOn '/' p.text
  rw [hl] at ht
  cases l
  case nil  => exact ht.symm
  case cons =>
    rw [Text.joinWith_cons _ _ (List.cons_ne_nil _ _)] at ht
    simp [isAbsolute, ← ht] at h

theorem filterMap_trimVoid (l : List Text) :
    (trimVoid l).filterMap ofSegment = l.filterMap ofSegment := by
  have drop (l : List Text) : (l.dropWhile isVoid).filterMap ofSegment = l.filterMap ofSegment := by
    induction l
    case nil         => rfl
    case cons s l hi =>
      rw [List.dropWhile_cons]
      split
      case isTrue h => rw [hi, List.filterMap_cons_none (ofSegment_void h)]
      case isFalse  => rfl
  rw [trimVoid, List.filterMap_reverse, drop, List.filterMap_reverse, List.reverse_reverse, drop]

theorem mem_of_mem_trimVoid {l : List Text} {s : Text} (h : s ∈ trimVoid l) : s ∈ l := by
  have hd := (List.dropWhile_sublist _).mem (List.mem_reverse.mp h)
  exact (List.dropWhile_sublist _).mem (List.mem_reverse.mp hd)

theorem head_trimVoid {l : List Text} {s : Text} (h : (trimVoid l).head? = some s) :
    isVoid s = false := by
  have hp : trimVoid l <+: l.dropWhile isVoid := by
    rw [trimVoid, ← List.reverse_suffix, List.reverse_reverse]
    exact List.dropWhile_suffix _
  obtain ⟨m, hm⟩ := hp
  have hs : (l.dropWhile isVoid).head? = some s := by rw [← hm, List.head?_append, h, Option.some_or]
  have hn := List.head?_dropWhile_not isVoid l
  rw [hs] at hn
  simpa using hn

-- Segments that start and end with one that is not void.
structure IsTrimmed (l : List Text) : Prop where
  head : ∀ s, l.head? = some s → isVoid s = false
  last : ∀ s, l.getLast? = some s → isVoid s = false

theorem trimVoid_append {l m : List Text} (hl : ∀ s ∈ l, isVoid s) (hm : IsTrimmed m) :
    trimVoid (l ++ m) = m := by
  have keep {l : List Text} (h : ∀ s, l.head? = some s → isVoid s = false) :
      l.dropWhile isVoid = l := by
    cases l
    case nil  => rfl
    case cons => exact List.dropWhile_cons_of_neg <| by simp [h _ rfl]
  rw [trimVoid, List.dropWhile_append_of_pos hl, keep hm.head, keep, List.reverse_reverse]
  rw [List.head?_reverse]
  exact hm.last

theorem components_ne_nil (h : p.text ≠ []) : p.components ≠ [] := by
  rw [components_eq]
  cases ha : p.isAbsolute
  case true  => simp [start, ha]
  case false =>
    intro hn
    obtain ⟨hd, hs⟩ := List.append_eq_nil_iff.mp hn
    obtain ⟨s, l, hl⟩ : ∃ s l, p.segments = s :: l :=
      List.exists_cons_of_ne_nil (Text.splitOn_ne_nil '/' p.text)
    have hv := isVoid_of_none <| List.filterMap_eq_nil_iff.mp hs s (by simp [hl])
    rcases isVoid_iff.mp hv with rfl | rfl
    case inl => exact h <| text_of_head_nil ha (by rw [hl, List.head?_cons])
    case inr => simp [start, ha, hl] at hd

-- Void segments may be left at the front.
theorem dropNamed_append (l m : List Text) : ∃ v, (∀ s ∈ v, isVoid s) ∧
    dropNamed (l.filterMap ofSegment).length (l ++ m) = v ++ m := by
  induction l
  case nil         => exact ⟨[], nofun, dropNamed.eq_1 m⟩
  case cons s l hi =>
    rcases ofSegment_cases s with ⟨hv, ho⟩ | ⟨hv, ho⟩
    case inr =>
      obtain ⟨c, hc⟩ := Option.ne_none_iff_exists'.mp <| ofSegment_ne_none hv
      rw [List.filterMap_cons_some hc, List.length_cons, List.cons_append, dropNamed, hv,
        if_neg Bool.false_ne_true]
      exact hi
    case inl =>
      rw [List.filterMap_cons_none ho]
      cases hn : l.filterMap ofSegment
      case cons c k =>
        rw [hn] at hi
        rw [List.length_cons, List.cons_append, dropNamed, if_pos hv]
        exact hi
      case nil      =>
        have void t (ht : t ∈ l) := isVoid_of_none <| List.filterMap_eq_nil_iff.mp hn t ht
        exact ⟨s :: l, List.forall_mem_cons.mpr ⟨hv, void⟩, dropNamed.eq_1 _⟩

-- A segment that says where a path starts names nothing.
theorem ofSegment_head {s : Text} (h : p.start ≠ []) (hs : p.segments.head? = some s) :
    ofSegment s = none := by
  unfold start at h
  split at h
  case isTrue ha  =>
    cases (head_segments_absolute ha).symm.trans hs
    rfl
  case isFalse ha =>
    split at h
    case isTrue hd => cases hd.symm.trans hs; rfl
    case isFalse   => exact absurd rfl h

theorem dropComponents_start (p : FilePath) (n : Nat) : p.dropComponents (p.start.length + n) =
    ⟨Text.joinWith ['/'] (trimVoid (dropNamed n (p.segments.drop p.start.length)))⟩ := by
  unfold dropComponents
  rw [components_eq]
  rcases start_cases p with h | h | h
  all_goals rw [h]
  case inl     => simp
  case inr.inl => simp
  case inr.inr =>
    rw [List.nil_append, List.length_nil, Nat.zero_add, List.drop_zero]
    split
    case h_3    => rfl
    case h_1 hs => rcases mem_steps (hs ▸ List.mem_cons_self ..) with hc | ⟨_, hc⟩ <;> cases hc
    case h_2 hs => rcases mem_steps (hs ▸ List.mem_cons_self ..) with hc | ⟨_, hc⟩ <;> cases hc

-- A path inside a directory is what is left of the joined one without the directory.
theorem stripBase?_join (hd : dir.text ≠ []) (hp : p.isAbsolute = false)
    (ht : IsTrimmed p.segments) : (dir.join p).stripBase? dir = some p := by
  obtain ⟨l, hh, hl, hj⟩ := exists_segments_join hd
  have hj := hj p hp
  obtain ⟨s, k, rfl⟩ : ∃ s k, l = s :: k := by
    refine List.exists_cons_of_ne_nil fun hn => Text.splitOn_ne_nil '/' dir.text ?_
    exact List.head?_eq_none_iff.mp <| hh.symm.trans (hn ▸ List.head?_nil)
  have start : (dir.join p).start = dir.start := by
    unfold start
    rw [isAbsolute_join_eq hd hp, hj, ← hh]
    rfl
  have steps : (s :: k).filterMap ofSegment = dir.steps := by
    unfold steps
    rcases hl with hl | hl
    case inl => rw [hl]
    case inr => simp only [hl, List.filterMap_append, List.filterMap_cons_none ofSegment_nil,
      List.filterMap_nil, List.append_nil]
  have hc : (dir.join p).components = dir.components ++ p.steps := by
    rw [components_eq, components_eq, start, steps_join hp, List.append_assoc]
  have ⟨v, hv, hr⟩ : ∃ v, (∀ s ∈ v, isVoid s) ∧
      dropNamed dir.steps.length ((dir.join p).segments.drop dir.start.length) =
        v ++ p.segments := by
    rw [hj, ← steps]
    have named {c : Component} (hs : dir.start = [c]) :
        (s :: k).filterMap ofSegment = k.filterMap ofSegment :=
      List.filterMap_cons_none <| ofSegment_head (by simp [hs]) (hh ▸ List.head?_cons)
    rcases start_cases dir with hs | hs | hs
    case inl     => simpa [hs, named hs] using dropNamed_append k p.segments
    case inr.inl => simpa [hs, named hs] using dropNamed_append k p.segments
    case inr.inr => simpa [hs] using dropNamed_append (s :: k) p.segments
  rw [stripBase?, hc, List.take_left, if_pos rfl,
    if_neg (by simpa using components_ne_nil hd), components_eq dir, List.length_append, ← start,
    dropComponents_start, start, hr, trimVoid_append hv ht, segments, Text.joinWith_splitOn]

-- Both ends count, so they are the same if nothing else does.
theorem IsTrimmed.single {l : List Text} (h : IsTrimmed l)
    (hn : (l.filterMap ofSegment).length = 1) : ∃ s, l = [s] := by
  cases l
  case nil => cases hn
  case cons s l =>
    cases hl : l.getLast?
    case none   => exact ⟨s, by rw [List.getLast?_eq_none_iff.mp hl]⟩
    case some t =>
      obtain ⟨m, rfl⟩ := List.getLast?_eq_some_iff.mp hl
      obtain ⟨c, hc⟩ := Option.ne_none_iff_exists'.mp <| ofSegment_ne_none (h.head s rfl)
      obtain ⟨d, hd⟩ := Option.ne_none_iff_exists'.mp <|
        ofSegment_ne_none (h.last t (by rw [← List.cons_append, List.getLast?_concat]))
      simp [hc, hd] at hn

theorem eq_name {n : Text} (h : IsTrimmed p.segments) (hn : p.steps = [.name n]) : p = ⟨n⟩ := by
  obtain ⟨s, hs⟩ := h.single (congrArg List.length hn)
  obtain ⟨hm, _⟩ := name_of_mem_steps (hn ▸ List.mem_singleton_self (Component.name n))
  obtain rfl := List.mem_singleton.mp (hs ▸ hm)
  exact segments_inj (hs.trans (segments_of_notMem (Text.notMem_of_mem_splitOn hm)).symm)

-- A path that leads to something inside a directory by names alone.
structure IsInner (p : FilePath) : Prop where
  relative : p.isAbsolute = false
  names    : ∀ c ∈ p.components, ∃ n, c = .name n

theorem IsInner.steps_eq (h : p.IsInner) : p.steps = p.components := by
  have hs : p.start = [] := by
    refine List.eq_nil_iff_forall_not_mem.mpr fun c hc => ?_
    obtain ⟨n, rfl⟩ := h.names c (components_eq p ▸ List.mem_append_left _ hc)
    rcases start_cases p with hs | hs | hs <;> simp [hs] at hc
  rw [components_eq, hs, List.nil_append]

end FilePath

end LogOrigin
