import LogOrigin.Text.Blank
import LogOrigin.Text.CharClass

-- What blanks are not: digits, word characters and first characters of names.

namespace LogOrigin.Text

variable {c : Char} {t : Text}

-- What holds of all characters of a text is decided for one after the other. Without these
-- instances all characters there are may be gone through.
instance (priority := 2000) decidableForallMem (p : Char → Prop) [DecidablePred p] (t : Text) :
    Decidable (∀ c ∈ t, p c) :=
  List.decidableBAll p t

instance (priority := 2000) decidableForallMemOption (p : Char → Prop) [DecidablePred p]
    (o : Option Char) : Decidable (∀ c ∈ o, p c) :=
  Option.decidableForallMem o

def blanks : List Char :=
  ([9, 10, 11, 12, 13, 32, 0x85, 0xA0, 0x1680, 0x2000, 0x2001, 0x2002, 0x2003, 0x2004, 0x2005,
    0x2006, 0x2007, 0x2008, 0x2009, 0x200A, 0x2028, 0x2029, 0x202F, 0x205F, 0x3000] : List Nat).map
    Char.ofNat

theorem mem_blanks (h : isBlank c = true) : c ∈ blanks := by
  have hc : c.toNat ∈ blanks.map Char.toNat := by
    simp only [isBlank, Bool.or_eq_true, Bool.and_eq_true, decide_eq_true_eq, beq_iff_eq] at h
    have hb : blanks.map Char.toNat = [9, 10, 11, 12, 13, 32, 0x85, 0xA0, 0x1680, 0x2000, 0x2001,
      0x2002, 0x2003, 0x2004, 0x2005, 0x2006, 0x2007, 0x2008, 0x2009, 0x200A, 0x2028, 0x2029,
      0x202F, 0x205F, 0x3000] := by decide
    simp only [hb, List.mem_cons, List.not_mem_nil, or_false]
    omega
  obtain ⟨b, hb, he⟩ := List.mem_map.mp hc
  exact Char.toNat_inj.mp he ▸ hb

theorem isDigit_of_isBlank (h : isBlank c = true) : isDigit c = false := by
  have hd : ∀ b ∈ blanks, isDigit b = false := by decide
  exact hd c (mem_blanks h)

theorem isBlank_of_isDigit (h : isDigit c = true) : isBlank c = false := by
  cases hb : isBlank c
  case false => rfl
  case true  => simp [isDigit_of_isBlank hb] at h

theorem isWord_of_isBlank (h : isBlank c = true) : isWord c = false := by
  have hw : ∀ b ∈ blanks, isWord b = false := by decide +kernel
  exact hw c (mem_blanks h)

theorem isBlank_of_isWord (h : isWord c = true) : isBlank c = false := by
  cases hb : isBlank c
  case false => rfl
  case true  => simp [isWord_of_isBlank hb] at h

theorem isWord_of_isIdentStart (h : isIdentStart c = true) : isWord c = true := by
  simp only [isIdentStart, Bool.or_eq_true, beq_iff_eq] at h
  rcases h with h | rfl
  case inl => exact isWord_of_isAsciiAlnum (by simp [isAsciiAlnum, h])
  case inr => rfl

theorem isAsciiLetter_iff : isAsciiLetter c = true ↔
    65 ≤ c.toNat ∧ c.toNat ≤ 90 ∨ 97 ≤ c.toNat ∧ c.toNat ≤ 122 := by
  simp only [isAsciiLetter, isAsciiUpper, isAsciiLower, Bool.or_eq_true, Bool.and_eq_true,
    decide_eq_true_eq]
  exact Iff.rfl

theorem isAsciiDigit_iff : isAsciiDigit c = true ↔ 48 ≤ c.toNat ∧ c.toNat ≤ 57 := by
  rw [isAsciiDigit, Bool.and_eq_true, decide_eq_true_eq, decide_eq_true_eq]
  exact Iff.rfl

theorem isDigit_of_isAsciiLetter (h : isAsciiLetter c = true) : isDigit c = false := by
  have hl := isAsciiLetter_iff.mp h
  rw [isDigit, if_pos (by omega)]
  refine Bool.eq_false_iff.mpr fun hd => ?_
  have := isAsciiDigit_iff.mp hd
  omega

theorem isDigit_of_isIdentStart (h : isIdentStart c = true) : isDigit c = false := by
  simp only [isIdentStart, Bool.or_eq_true, beq_iff_eq] at h
  rcases h with h | rfl
  case inl => exact isDigit_of_isAsciiLetter h
  case inr => rfl

theorem isBlank_of_isIdentStart (h : isIdentStart c = true) : isBlank c = false :=
  isBlank_of_isWord (isWord_of_isIdentStart h)

-- At both ends of a word a boundary means that no word goes on beyond it.
theorem boundaries_iff {w : Text} (hn : w ≠ []) (hw : ∀ c ∈ w, isWord c = true)
    (before : Option Char) (r : Text) :
    (isBoundary before (w ++ r).head? && isBoundary (w.getLast?.or before) r.head?) = true ↔
      before.any isWord = false ∧ r.head?.any isWord = false := by
  obtain ⟨c, w, rfl⟩ := List.exists_cons_of_ne_nil hn
  have hc := hw c (List.mem_cons_self ..)
  have hl := hw _ (List.getLast_mem hn)
  simp [isBoundary, List.getLast?_eq_some_getLast hn, hc, hl]

theorem trimStart_eq {t : Text} (h : ∀ c ∈ t.head?, isBlank c = false) : trimStart t = t := by
  cases t
  case nil      => rfl
  case cons c t => simp [trimStart, h c rfl]

end LogOrigin.Text
