import LogOrigin.Log.Target
import LogOrigin.Proofs.Text.Blank
import LogOrigin.Proofs.Text.Trim

-- Paths as they are written: two or more names joined by double colons. They are recognised at the
-- front of a text exactly where such a path stands.

namespace LogOrigin.Target

open Text

-- A name with characters of a class after its first one.
def IsIdent (p : Char → Bool) : Text → Prop
  | []     => False
  | c :: t => isIdentStart c = true ∧ ∀ d ∈ t, p d = true

instance (p : Char → Bool) : DecidablePred (IsIdent p)
  | []     => inferInstanceAs (Decidable False)
  | c :: t => inferInstanceAs (Decidable (isIdentStart c = true ∧ ∀ d ∈ t, p d = true))

def IsPath (p : Char → Bool) (t : Text) : Prop :=
  ∃ l, 2 ≤ l.length ∧ (∀ n ∈ l, IsIdent p n) ∧ t = joinWith [':', ':'] l

-- What stands behind the first name of a path.
def joined (l : List Text) : Text :=
  l.flatMap ([':', ':'] ++ ·)

variable {p : Char → Bool} {c : Char} {a n r t u : Text} {l : List Text}

@[simp]
theorem joined_nil : joined [] = [] :=
  rfl

@[simp]
theorem joined_cons (n : Text) (l : List Text) : joined (n :: l) = ':' :: ':' :: (n ++ joined l) :=
  rfl

theorem joinWith_cons (n : Text) (l : List Text) :
    joinWith [':', ':'] (n :: l) = n ++ joined l := by
  induction l generalizing n
  case nil         => simp [joinWith]
  case cons m l hi => simp [joinWith, hi]

theorem joinWith_head (hn : l ≠ []) (hl : ∀ n ∈ l, IsIdent p n) :
    ∃ c t, joinWith [':', ':'] l = c :: t ∧ isIdentStart c = true := by
  match l with
  | []            => exact absurd rfl hn
  | [] :: l       => cases hl [] (List.mem_cons_self ..)
  | (c :: n) :: l => exact ⟨c, _, joinWith_cons .., (hl (c :: n) (List.mem_cons_self ..)).1⟩

theorem IsPath.head (h : IsPath p a) : ∃ c t, a = c :: t ∧ isIdentStart c = true := by
  obtain ⟨l, hn, hl, rfl⟩ := h
  exact joinWith_head (List.ne_nil_of_length_pos (by omega)) hl

theorem IsIdent.mono {q : Char → Bool} (h : IsIdent p n) (hq : ∀ c, p c = true → q c = true) :
    IsIdent q n := by
  cases n
  case nil      => cases h
  case cons c n => exact ⟨h.1, fun d hd => hq d <| h.2 d hd⟩

theorem IsPath.mono {q : Char → Bool} (h : IsPath p a) (hq : ∀ c, p c = true → q c = true) :
    IsPath q a := by
  obtain ⟨l, hn, hl, rfl⟩ := h
  exact ⟨l, hn, fun n hm => (hl n hm).mono hq, rfl⟩

theorem forall_mem_joinWith (hl : ∀ n ∈ l, IsIdent p n) :
    ∀ c ∈ joinWith [':', ':'] l, c = ':' ∨ isIdentStart c = true ∨ p c = true := by
  have hi {n} (hn : IsIdent p n) : ∀ c ∈ n, isIdentStart c = true ∨ p c = true := by
    cases n
    case nil      => cases hn
    case cons d n => exact List.forall_mem_cons.mpr ⟨.inl hn.1, fun c hc => .inr (hn.2 c hc)⟩
  match l with
  | []     => nofun
  | n :: l =>
    simp only [joinWith_cons, joined, List.mem_append, List.mem_flatMap]
    rintro c (hc | ⟨m, hm, hc | hc⟩)
    · exact .inr <| hi (hl n (List.mem_cons_self ..)) c hc
    · exact .inl <| by simpa using hc
    · exact .inr <| hi (hl m (List.mem_cons_of_mem _ hm)) c hc

theorem IsPath.forall_mem (h : IsPath p a) :
    ∀ c ∈ a, c = ':' ∨ isIdentStart c = true ∨ p c = true := by
  obtain ⟨l, _, hl, rfl⟩ := h
  exact forall_mem_joinWith hl

theorem takeTail_append (hp : p ':' = false) (hn : ∀ d ∈ n, p d = true) (r : Text) :
    takeTail p (n ++ r) = (n ++ (takeTail p r).1, (takeTail p r).2) := by
  induction n
  case nil         => rfl
  case cons c n hi =>
    have ⟨hc, hn⟩ := List.forall_mem_cons.mp hn
    have : c ≠ ':' := by rintro rfl; simp [hp] at hc
    simp [takeTail, hc, hi hn]

theorem takeTail_joined (hp : p ':' = false) (hl : ∀ n ∈ l, IsIdent p n)
    (hr : takeTail p r = ([], r)) : takeTail p (joined l ++ r) = (joined l, r) := by
  induction l
  case nil         => simpa using hr
  case cons n l hi =>
    have ⟨hn, hl'⟩ := List.forall_mem_cons.mp hl
    cases n
    case nil      => cases hn
    case cons c n => simp [takeTail, hn.1, takeTail_append hp hn.2, hi hl']

theorem takeTail_split (p : Char → Bool) (t : Text) :
    (takeTail p t).1 ++ (takeTail p t).2 = t := by
  fun_induction takeTail p t
  case case2 hi => simpa using hi
  case case5 hi => simpa using hi
  all_goals rfl

-- What is taken is an end of one name and then whole names.
theorem exists_of_takeTail (p : Char → Bool) (t : Text) : ∃ (n : Text) (l : List Text),
    (∀ d ∈ n, p d = true) ∧ (∀ k ∈ l, IsIdent p k) ∧ (takeTail p t).1 = n ++ joined l := by
  fun_induction takeTail p t
  case case2 c u hc r hi =>
    obtain ⟨n, l, hn, hl, hr⟩ := hi
    exact ⟨[], (c :: n) :: l, by simp, List.forall_mem_cons.mpr ⟨⟨hc, hn⟩, hl⟩, by simp [r, hr]⟩
  case case5 c t _ hc r hi =>
    obtain ⟨n, l, hn, hl, hr⟩ := hi
    exact ⟨c :: n, l, List.forall_mem_cons.mpr ⟨hc, hn⟩, hl, by simp [r, hr]⟩
  all_goals exact ⟨[], [], by simp, by simp, rfl⟩

theorem colon_notMem (hp : p ':' = false) (h : IsIdent p n) : ':' ∉ n := by
  cases n
  case nil      => cases h
  case cons c n =>
    rintro (_ | ⟨_, hn⟩)
    case head => exact absurd h.1 (by decide)
    case tail => simpa [hp] using h.2 _ hn

theorem count_joined (hp : p ':' = false) (h : ∀ n ∈ l, IsIdent p n) :
    (joined l).count ':' = 2 * l.length := by
  induction l
  case nil         => rfl
  case cons n l hi =>
    have ⟨hn, hl⟩ := List.forall_mem_cons.mp h
    simp [hi hl, List.count_eq_zero_of_not_mem (colon_notMem hp hn)]
    omega

-- Two colons for every name but the first.
theorem count_joinWith (hp : p ':' = false) (h : ∀ n ∈ l, IsIdent p n) :
    (joinWith [':', ':'] l).count ':' = 2 * (l.length - 1) := by
  match l with
  | []     => rfl
  | n :: l =>
    have ⟨hn, hl⟩ := List.forall_mem_cons.mp h
    simp [joinWith_cons, count_joined hp hl, List.count_eq_zero_of_not_mem (colon_notMem hp hn)]

theorem joints_append_joined (hn : IsIdent isWord n) (hl : ∀ k ∈ l, IsIdent isWord k) :
    joints (n ++ joined l) = l.length := by
  simp [joints, count_joined rfl hl, List.count_eq_zero_of_not_mem (colon_notMem rfl hn)]

theorem exists_of_takePath (h : takePath t = some (a, r)) : t = a ++ r ∧ IsPath isWord a := by
  cases t
  case nil      => simp [takePath, takeWith] at h
  case cons c t =>
    obtain ⟨h, hj⟩ := Option.filter_eq_some_iff.mp h
    simp only [takeWith] at h
    split at h
    case isFalse   => cases h
    case isTrue hc =>
      obtain ⟨n, l, hn, hl, hr⟩ := exists_of_takeTail isWord t
      have hs := takeTail_split isWord t
      cases h
      have hi : IsIdent isWord (c :: n) := ⟨hc, hn⟩
      refine ⟨by simp [hs], (c :: n) :: l, ?_, List.forall_mem_cons.mpr ⟨hi, hl⟩, ?_⟩
      · have := joints_append_joined hi hl
        simp_all
      · simp [joinWith_cons, hr]

theorem takeWith_joinWith (hp : p ':' = false) (hn : l ≠ []) (hl : ∀ n ∈ l, IsIdent p n)
    (hr : takeTail p r = ([], r)) :
    takeWith p (joinWith [':', ':'] l ++ r) = some (joinWith [':', ':'] l, r) := by
  match l with
  | []            => exact absurd rfl hn
  | [] :: l       => cases hl [] (List.mem_cons_self ..)
  | (c :: n) :: l =>
    have ⟨hi, hl'⟩ := List.forall_mem_cons.mp hl
    have ht := takeTail_joined hp hl' hr
    have hw := takeTail_append hp hi.2 (joined l ++ r)
    simp [takeWith, joinWith_cons, hi.1, hw, ht]

theorem IsPath.takePath (h : IsPath isWord a) (hr : takeTail isWord r = ([], r)) :
    takePath (a ++ r) = some (a, r) := by
  obtain ⟨l, hn, hl, rfl⟩ := h
  have hj : 1 ≤ joints (joinWith [':', ':'] l) := by
    rw [joints, count_joinWith rfl hl]
    omega
  have := takeWith_joinWith rfl (List.ne_nil_of_length_pos (by omega)) hl hr
  simp [Target.takePath, this, Option.filter, hj]

-- Neither a blank nor a colon with a blank behind it continues a path.
theorem takeTail_blank (h : isBlank c = true) (r : Text) :
    takeTail isWord (c :: r) = ([], c :: r) ∧
      takeTail isWord (':' :: c :: r) = ([], ':' :: c :: r) := by
  have hc : c ≠ ':' := by rintro rfl; cases h
  simp [takeTail, isWord_of_isBlank h, hc]

theorem takeTail_colon (h : ∀ c ∈ t.head?, c ≠ ':') :
    takeTail p (':' :: t) = ([], ':' :: t) := by
  cases t
  case nil      => rfl
  case cons c t => simp [takeTail, h c rfl]

theorem leadingPath?_eq_some_iff : leadingPath? t = some a ↔
    IsPath isWord a ∧ ∃ c r, t = a ++ ':' :: c :: r ∧ isBlank c = true := by
  constructor
  case mp  =>
    intro h
    unfold leadingPath? at h
    split at h
    case h_1 path c r ht =>
      split at h
      case isTrue hc  =>
        cases h
        obtain ⟨rfl, hp⟩ := exists_of_takePath ht
        exact ⟨hp, c, r, rfl, hc⟩
      case isFalse    => cases h
    case h_2 => cases h
  case mpr =>
    rintro ⟨hp, c, r, rfl, hc⟩
    simp [leadingPath?, hp.takePath (takeTail_blank hc r).2, hc]

-- What is taken off is a path, as long as the blank behind it or behind its colon is a blank.
theorem splitPath?_eq_some (h : splitPath? t = some (a, r)) :
    IsPath isWord a ∧ ∃ c u, isBlank c = true ∧ r = trimStart u ∧
      (t = a ++ c :: u ∨ t = a ++ ':' :: c :: u) := by
  unfold splitPath? at h
  split at h
  case h_2 => cases h
  case h_1 path q ht =>
    obtain ⟨rfl, hp⟩ := exists_of_takePath ht
    split at h
    case h_2          => cases h
    case h_1 c u hu =>
      obtain ⟨hc, he⟩ := Option.ite_none_right_eq_some.mp h
      cases he
      refine ⟨hp, c, u, hc, rfl, ?_⟩
      cases q
      case nil      => cases hu
      case cons d q =>
        by_cases hd : d = ':'
        case pos => exact .inr (by simp_all [dropOptional])
        case neg => exact .inl (by simp_all [dropOptional])

-- A target is taken off the front of a message as it is written.
theorem split?_joinWith (hp : ∀ c, p c = true → isTargetChar c = true) (hn : l ≠ [])
    (hl : ∀ n ∈ l, IsIdent p n) (ht : ∀ c ∈ t.head?, isBlank c = false) :
    split? (joinWith [':', ':'] l ++ ':' :: ' ' :: t) = some (joinWith [':', ':'] l, t) := by
  have hs : isBlank ' ' = true := rfl
  have hc : isTargetChar ':' = false := rfl
  have hr : takeTail isTargetChar (':' :: ' ' :: t) = ([], ':' :: ' ' :: t) :=
    takeTail_colon (by simp)
  simp [split?, takeWith_joinWith hc hn (fun n hm => (hl n hm).mono hp) hr, hs, trimStart_eq ht]

theorem splitPath?_text (h : IsPath isWord a) (ht : ∀ c ∈ t.head?, isBlank c = false) :
    splitPath? (a ++ ' ' :: t) = some (a, t) ∧
      splitPath? (a ++ ':' :: ' ' :: t) = some (a, t) := by
  have hs : isBlank ' ' = true := rfl
  have ⟨h₁, h₂⟩ := takeTail_blank hs t
  simp [splitPath?, h.takePath h₁, h.takePath h₂, dropOptional, hs, trimStart_eq ht]

theorem isBlank_joinWith (hb : ∀ c, p c = true → isBlank c = false) (hl : ∀ n ∈ l, IsIdent p n) :
    ∀ c ∈ joinWith [':', ':'] l, isBlank c = false := by
  intro c hc
  rcases forall_mem_joinWith hl c hc with rfl | hc | hc
  case inl     => rfl
  case inr.inl => exact isBlank_of_isIdentStart hc
  case inr.inr => exact hb c hc

-- The names of a path are the names that it is written with.
theorem IsPath.of_joinWith (hp : p ':' = false) (hl : ∀ n ∈ l, IsIdent p n)
    (h : IsPath isWord (joinWith [':', ':'] l)) : 2 ≤ l.length ∧ ∀ n ∈ l, IsIdent isWord n := by
  have hc := h.forall_mem
  obtain ⟨k, hk, hk', he⟩ := h
  constructor
  case left  =>
    have := count_joinWith hp hl
    rw [he, count_joinWith rfl hk'] at this
    omega
  case right =>
    intro n hn
    have hi := hl n hn
    cases n
    case nil      => cases hi
    case cons d n =>
      refine ⟨hi.1, fun c hm => ?_⟩
      have hm := List.mem_cons_of_mem d hm
      rcases hc c (mem_joinWith hn hm) with rfl | hc | hc
      case inl     => exact absurd hm (colon_notMem hp hi)
      case inr.inl => exact isWord_of_isIdentStart hc
      case inr.inr => exact hc

-- Of names with a colon and a blank behind them a path is taken only if they are one, and then all
-- of them are taken.
theorem splitPath?_joinWith (hp : p ':' = false) (hb : ∀ c, p c = true → isBlank c = false)
    (hl : ∀ n ∈ l, IsIdent p n) (ht : ∀ c ∈ t.head?, isBlank c = false)
    (h : splitPath? (joinWith [':', ':'] l ++ ':' :: ' ' :: t) = some (a, r)) :
    r = t ∧ a = joinWith [':', ':'] l ∧ IsPath isWord a := by
  obtain ⟨ha, c, u, hc, rfl, he⟩ := splitPath?_eq_some h
  obtain ⟨k, hk, hk', rfl⟩ := ha
  have hs : isBlank ' ' = true := rfl
  have colon {m : Text} (hm : ∀ c ∈ m, isBlank c = false) :
      ∀ c ∈ m ++ [':'], (!isBlank c) = true := by
    intro c hc
    rcases List.mem_append.mp hc with hc | hc
    case inl => simp [hm c hc]
    case inr => simp [List.mem_singleton.mp hc, isBlank]
  have hl' := isBlank_joinWith hb hl
  have hk'' := isBlank_joinWith (fun _ => isBlank_of_isWord) hk'
  rw [List.append_cons] at he
  rcases he with he | he
  case inl =>
    -- Names have an even number of colons between them, so none is left at the end of the path.
    obtain ⟨h₁, -⟩ := run_inj (colon hl') (by simpa using hk'') (by simp [hs]) (by simp [hc]) he
    have := congrArg (List.count ':') h₁
    simp [List.count_append, count_joinWith hp hl, count_joinWith rfl hk'] at this
    omega
  case inr =>
    rw [List.append_cons (joinWith _ k)] at he
    obtain ⟨h₁, h₂⟩ := run_inj (colon hl') (colon hk'') (by simp [hs]) (by simp [hc]) he
    obtain ⟨rfl, rfl⟩ := List.cons.inj h₂
    exact ⟨trimStart_eq ht, (List.append_cancel_right h₁).symm, k, hk, hk', rfl⟩

theorem colon_notMem_takeTail (hn : ':' ∉ n) (hr : takeTail isWord r = ([], r)) :
    ':' ∉ (takeTail isWord (n ++ r)).1 := by
  induction n
  case nil         => simp [hr]
  case cons c n hi =>
    have ⟨hc, hn'⟩ : ':' ≠ c ∧ ':' ∉ n := by simpa using hn
    by_cases hw : isWord c = true
    case pos => simpa [takeTail, hc.symm, hw, hc] using hi hn'
    case neg => simp [takeTail, hc.symm, hw]

-- A name that is not continued by two colons is no path.
theorem splitPath?_name (hn : ':' ∉ c :: n) (hr : takeTail isWord r = ([], r)) :
    splitPath? (c :: (n ++ r)) = none := by
  have ⟨hc, hn'⟩ : ':' ≠ c ∧ ':' ∉ n := by simpa using hn
  have ht : takePath (c :: (n ++ r)) = none := by
    cases hs : isIdentStart c
    case false => simp [takePath, takeWith, hs]
    case true  =>
      have : ':' ∉ c :: (takeTail isWord (n ++ r)).1 := by simp [hc, colon_notMem_takeTail hn' hr]
      simp [takePath, takeWith, hs, Option.filter, joints, List.count_eq_zero_of_not_mem this]
  simp [splitPath?, ht]

end LogOrigin.Target
