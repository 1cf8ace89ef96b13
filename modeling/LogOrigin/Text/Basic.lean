-- Text is handled as its list of Unicode scalar values. This module has the operations that do not
-- depend on a character class: lines, containment, joining, ordering and size in bytes.

namespace LogOrigin

abbrev Text := List Char

namespace Text

-- The number of bytes that the text takes in UTF-8.
def byteSize : Text → Nat
  | []     => 0
  | c :: t => c.utf8Size + byteSize t

@[simp]
theorem byteSize_append (s t : Text) : byteSize (s ++ t) = byteSize s + byteSize t := by
  induction s with
  | nil         => simp [byteSize]
  | cons c s hi => simp [byteSize, hi, Nat.add_assoc]

theorem byteSize_eq_zero {t : Text} : byteSize t = 0 ↔ t = [] := by
  cases t with
  | nil      => simp [byteSize]
  | cons c t => simp [byteSize, Nat.ne_of_gt c.utf8Size_pos]

-- Drops `p` from the front of a text that starts with it.
def dropLead? : Text → Text → Option Text
  | [], t               => some t
  | _ :: _, []          => none
  | c :: p, d :: t      => if c = d then dropLead? p t else none

theorem dropLead?_eq_some {p t r : Text} : dropLead? p t = some r ↔ t = p ++ r := by
  induction p generalizing t with
  | nil         => simp [dropLead?, eq_comm]
  | cons c p hi =>
    cases t with
    | nil      => simp [dropLead?]
    | cons d t =>
      by_cases h : c = d
      · simp [dropLead?, h, hi]
      · simp [dropLead?, h, Ne.symm h]

def startsWith (t p : Text) : Bool :=
  (dropLead? p t).isSome

-- Whether `p` occurs somewhere in the text.
def contains (t p : Text) : Bool :=
  startsWith t p || match t with
    | []     => false
    | _ :: t => contains t p

theorem startsWith_iff {t p : Text} : startsWith t p = true ↔ ∃ r, t = p ++ r := by
  simp [startsWith, Option.isSome_iff_exists, dropLead?_eq_some]

theorem contains_iff {t p : Text} : contains t p = true ↔ ∃ s r, t = s ++ p ++ r := by
  induction t with
  | nil         =>
    unfold contains
    simp only [Bool.or_false, startsWith_iff]
    constructor
    · intro ⟨r, h⟩
      exact ⟨[], r, h⟩
    · intro ⟨s, r, h⟩
      simp at h
      exact ⟨r, by simp [h]⟩
  | cons c t hi =>
    unfold contains
    simp only [Bool.or_eq_true, startsWith_iff, hi]
    constructor
    · rintro (⟨r, h⟩ | ⟨s, r, h⟩)
      · exact ⟨[], r, h⟩
      · exact ⟨c :: s, r, by simp [h]⟩
    · rintro ⟨s, r, h⟩
      cases s with
      | nil      => exact .inl ⟨r, by simpa using h⟩
      | cons d s =>
        simp only [List.cons_append, List.cons.injEq] at h
        exact .inr ⟨s, r, h.2⟩

-- The line without the carriage return that belongs to its line feed; the line is given reversed.
def chomp : Text → Text
  | '\r' :: l => l.reverse
  | l         => l.reverse

-- The lines of a text. A line ends at a line feed, with one carriage return before it dropped; what
-- follows the last line feed is a line of its own unless it is empty.
def lines (t : Text) : List Text :=
  go [] t
where
  go (acc : Text) : Text → List Text
    | []        => if acc.isEmpty then [] else [acc.reverse]
    | '\n' :: t => chomp acc :: go [] t
    | c :: t    => go (c :: acc) t

-- The parts of a text between the occurrences of a separator.
def splitOn (sep : Char) (t : Text) : List Text :=
  go [] t
where
  go (acc : Text) : Text → List Text
    | []     => [acc.reverse]
    | c :: t => if c = sep then acc.reverse :: go [] t else go (c :: acc) t

def joinWith (sep : Text) : List Text → Text
  | []          => []
  | [t]         => t
  | t :: u :: l => t ++ sep ++ joinWith sep (u :: l)

theorem mem_joinWith {sep t : Text} {l : List Text} {c : Char} (ht : t ∈ l) (hc : c ∈ t) :
    c ∈ joinWith sep l := by
  induction l using joinWith.induct
  case case1          => cases ht
  case case2          => simpa [joinWith, List.mem_singleton.mp ht] using hc
  case case3 u v l hi =>
    rw [joinWith]
    rcases List.mem_cons.mp ht with rfl | ht
    case inl => simp [hc]
    case inr => simp [hi ht]

theorem of_mem_joinWith {sep : Text} {l : List Text} {c : Char} (h : c ∈ joinWith sep l) :
    c ∈ sep ∨ ∃ t ∈ l, c ∈ t := by
  induction l using joinWith.induct
  case case1          => cases h
  case case2 t        => exact .inr ⟨t, List.mem_singleton_self t, h⟩
  case case3 t u l hi =>
    rw [joinWith] at h
    rcases List.mem_append.mp h with h | h
    case inr =>
      rcases hi h with h | ⟨v, hv, h⟩
      case inl => exact .inl h
      case inr => exact .inr ⟨v, List.mem_cons_of_mem t hv, h⟩
    case inl =>
      rcases List.mem_append.mp h with h | h
      case inl => exact .inr ⟨t, List.mem_cons_self .., h⟩
      case inr => exact .inl h

-- The text before and after the first occurrence of a character.
def splitOnce? (sep : Char) : Text → Option (Text × Text)
  | []     => none
  | c :: t => if c = sep then some ([], t) else (splitOnce? sep t).map fun p => (c :: p.1, p.2)

def endsWith (t p : Text) : Bool :=
  startsWith t.reverse p.reverse

def dropEndWhile (p : Char → Bool) (t : Text) : Text :=
  (t.reverse.dropWhile p).reverse

-- The order of texts by code point, which is also the order of their UTF-8 bytes.
def le : Text → Text → Bool
  | [], _          => true
  | _ :: _, []     => false
  | c :: s, d :: t => c.val < d.val || (c.val == d.val && le s t)

theorem le_total (s t : Text) : le s t || le t s := by
  induction s generalizing t with
  | nil         => simp [le]
  | cons c s hi =>
    cases t with
    | nil      => simp [le]
    | cons d t =>
      have := hi t
      simp only [le, Bool.or_eq_true, Bool.and_eq_true, decide_eq_true_eq, beq_iff_eq] at *
      rcases Nat.lt_trichotomy c.val.toNat d.val.toNat with h | h | h
      · exact .inl (.inl h)
      · have e : c.val = d.val := UInt32.toNat_inj.1 h
        rcases this with h | h
        · exact .inl (.inr ⟨e, h⟩)
        · exact .inr (.inr ⟨e.symm, h⟩)
      · exact .inr (.inl h)

theorem le_trans {s t u : Text} (h₁ : le s t = true) (h₂ : le t u = true) : le s u = true := by
  induction s generalizing t u with
  | nil         => simp [le]
  | cons c s hi =>
    cases t with
    | nil      => simp [le] at h₁
    | cons d t =>
      cases u with
      | nil      => simp [le] at h₂
      | cons e u =>
        simp only [le, Bool.or_eq_true, Bool.and_eq_true, decide_eq_true_eq, beq_iff_eq] at *
        rcases h₁ with h₁ | ⟨h₁, k₁⟩ <;> rcases h₂ with h₂ | ⟨h₂, k₂⟩
        · exact .inl (UInt32.lt_trans h₁ h₂)
        · exact .inl (h₂ ▸ h₁)
        · exact .inl (h₁ ▸ h₂)
        · exact .inr ⟨h₁.trans h₂, hi k₁ k₂⟩

theorem le_antisymm {s t : Text} (h₁ : le s t = true) (h₂ : le t s = true) : s = t := by
  induction s generalizing t with
  | nil         =>
    cases t with
    | nil      => rfl
    | cons d t => simp [le] at h₂
  | cons c s hi =>
    cases t with
    | nil      => simp [le] at h₁
    | cons d t =>
      simp only [le, Bool.or_eq_true, Bool.and_eq_true, decide_eq_true_eq, beq_iff_eq] at *
      rcases h₁ with h₁ | ⟨h₁, k₁⟩ <;> rcases h₂ with h₂ | ⟨h₂, k₂⟩
      · exact absurd h₁ (UInt32.lt_asymm h₂)
      · exact absurd (h₂ ▸ h₁) (UInt32.lt_irrefl _)
      · exact absurd (h₁ ▸ h₂) (UInt32.lt_irrefl _)
      · rw [Char.ext h₁, hi k₁ k₂]

-- The decimal digits of a number.
def ofNat (n : Nat) : Text :=
  Nat.toDigits 10 n

end Text

end LogOrigin
