import LogOrigin.Text.Basic
import Mathlib.Algebra.Group.Nat.Defs

-- The order of texts by code point, from character to character, and that of numbers which are
-- written with the same number of digits.

namespace LogOrigin

namespace Text

variable {c d : Char} {s t u v : Text} {w m n : Nat}

-- The first text comes before the second one.
def Before (s t : Text) : Prop :=
  le t s = false

instance (s t : Text) : Decidable (Before s t) :=
  inferInstanceAs (Decidable (_ = _))

theorem not_before_iff : ¬Before s t ↔ le t s = true := by
  simp [Before]

theorem Before.le (h : Before s t) : le s t = true := by
  have ht := le_total s t
  rwa [show Text.le t s = false from h, Bool.or_false] at ht

theorem Before.asymm (h : Before s t) : ¬Before t s :=
  not_before_iff.mpr h.le

theorem before_or_before (h : s ≠ t) : Before s t ∨ Before t s := by
  by_cases hs : Before s t
  case pos => exact .inl hs
  case neg =>
    refine .inr <| Bool.eq_false_iff.mpr fun ht => h ?_
    exact le_antisymm ht (not_before_iff.mp hs)

theorem before_cons_iff : Before (c :: s) (d :: t) ↔ c < d ∨ c = d ∧ Before s t := by
  have hl : c < d ↔ c.val.toNat < d.val.toNat := Iff.rfl
  have he : c = d ↔ c.val.toNat = d.val.toNat := by rw [Char.ext_iff, UInt32.toNat_inj]
  have hv : d.val = c.val ↔ c.val.toNat = d.val.toNat := by rw [eq_comm, UInt32.toNat_inj]
  simp only [Before, le, Bool.or_eq_false_iff, Bool.and_eq_false_iff, decide_eq_false_iff_not,
    beq_eq_false_iff_ne, hl, he, ne_eq, hv, UInt32.lt_iff_toNat_lt]
  cases le t s
  case false =>
    simp only [or_true, and_true]
    omega
  case true  =>
    simp only [Bool.true_eq_false, or_false, and_false]
    omega

-- Texts of one length are compared first, and what follows them only if they are the same.
theorem before_field_iff (h : u.length = v.length) :
    Before (u ++ s) (v ++ t) ↔ Before u v ∨ u = v ∧ Before s t := by
  induction u generalizing v
  case nil         =>
    obtain rfl := List.length_eq_zero_iff.mp h.symm
    simp [Before, le]
  case cons c u hi =>
    obtain _ | ⟨d, v⟩ := v
    case nil  => cases h
    case cons =>
      have hi := hi (Nat.succ.inj h)
      simp only [List.cons_append, before_cons_iff, hi, List.cons.injEq]
      grind

-- A number below `10 ^ w` with `w` digits.
def numeral : Nat → Nat → Text
  | 0, _     => []
  | w + 1, n => Nat.digitChar (n / 10 ^ w) :: numeral w (n % 10 ^ w)

theorem length_numeral (w n : Nat) : (numeral w n).length = w := by
  induction w generalizing n
  case zero      => rfl
  case succ w hi => simp [numeral, hi]

theorem digitChar_lt_iff (hm : m < 10) (hn : n < 10) :
    Nat.digitChar m < Nat.digitChar n ↔ m < n := by
  have h : ∀ m n : Fin 10, Nat.digitChar m < Nat.digitChar n ↔ m < n := by decide
  exact h ⟨m, hm⟩ ⟨n, hn⟩

theorem digitChar_inj (hm : m < 10) (hn : n < 10) (h : Nat.digitChar m = Nat.digitChar n) :
    m = n := by
  have hd : ∀ m n : Fin 10, Nat.digitChar m = Nat.digitChar n → m = n := by decide
  exact Fin.mk.inj <| hd ⟨m, hm⟩ ⟨n, hn⟩ h

theorem before_numeral_iff (hm : m < 10 ^ w) (hn : n < 10 ^ w) :
    Before (numeral w m) (numeral w n) ↔ m < n := by
  induction w generalizing m n
  case zero      =>
    obtain rfl : m = n := by omega
    simp [numeral, Before, le]
  case succ w hi =>
    have hp : 0 < 10 ^ w := Nat.pow_pos (by decide)
    have hm' : m / 10 ^ w < 10 := Nat.div_lt_of_lt_mul (by rwa [← Nat.pow_succ])
    have hn' : n / 10 ^ w < 10 := Nat.div_lt_of_lt_mul (by rwa [← Nat.pow_succ])
    rw [numeral, numeral, before_cons_iff, digitChar_lt_iff hm' hn',
      hi (Nat.mod_lt m hp) (Nat.mod_lt n hp)]
    have em := Nat.div_add_mod m (10 ^ w)
    have en := Nat.div_add_mod n (10 ^ w)
    constructor
    case mp  =>
      rintro (h | ⟨h, hr⟩)
      case inl => exact Nat.lt_of_div_lt_div h
      case inr =>
        rw [digitChar_inj hm' hn' h] at em
        omega
    case mpr =>
      intro h
      rcases Nat.lt_or_eq_of_le (Nat.div_le_div_right (Nat.le_of_lt h)) with hq | hq
      case inl => exact .inl hq
      case inr =>
        rw [hq] at em
        exact .inr ⟨by rw [hq], by omega⟩

theorem numeral_inj (hm : m < 10 ^ w) (hn : n < 10 ^ w) (h : numeral w m = numeral w n) :
    m = n := by
  have hb : ¬Before (numeral w m) (numeral w n) := h ▸ fun hb => hb.asymm hb
  have hb' : ¬Before (numeral w n) (numeral w m) := h ▸ fun hb => hb.asymm hb
  rw [before_numeral_iff hm hn] at hb
  rw [before_numeral_iff hn hm] at hb'
  omega

-- A number with the text that follows it.
theorem before_numeral_append_iff (hm : m < 10 ^ w) (hn : n < 10 ^ w) :
    Before (numeral w m ++ s) (numeral w n ++ t) ↔ m < n ∨ m = n ∧ Before s t := by
  rw [before_field_iff (by rw [length_numeral, length_numeral]), before_numeral_iff hm hn]
  have he : numeral w m = numeral w n ↔ m = n := ⟨numeral_inj hm hn, fun h => by rw [h]⟩
  rw [he]

end Text

end LogOrigin
