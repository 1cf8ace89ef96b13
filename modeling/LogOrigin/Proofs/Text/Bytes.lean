import LogOrigin.Proofs.Text.Order
import Mathlib.Data.List.Basic

-- The order of texts by their UTF-8 bytes is their order by code point.

namespace LogOrigin

namespace Text

variable {c d : Char} {s t : Text} {x y : List UInt8}

def bytes (t : Text) : List UInt8 :=
  t.flatMap String.utf8EncodeChar

theorem bytes_cons (c : Char) (t : Text) : bytes (c :: t) = String.utf8EncodeChar c ++ bytes t :=
  List.flatMap_cons

theorem bytes_append (s t : Text) : bytes (s ++ t) = bytes s ++ bytes t :=
  List.flatMap_append

-- The numbers from which a character takes one byte more, by which the cases are split, are those at
-- which its first byte jumps over all first bytes before.
theorem utf8EncodeChar_lt (h : c < d) (x y : List UInt8) :
    String.utf8EncodeChar c ++ x < String.utf8EncodeChar d ++ y := by
  have hl : c.val.toNat < d.val.toNat := h
  have hd : d.val.toNat < 0x110000 := by
    have := d.valid
    unfold UInt32.isValidChar Nat.isValidChar at this
    omega
  unfold String.utf8EncodeChar
  dsimp only
  generalize c.val.toNat = m at hl
  generalize d.val.toNat = n at hl hd
  split_ifs <;>
    simp only [List.cons_append, List.nil_append, List.cons_lt_cons_iff, UInt8.lt_iff_toNat_lt,
      UInt8.ext_iff, UInt8.toNat_ofNat'] <;>
    simp (disch := omega) only [Nat.mod_eq_of_lt] <;>
    omega

theorem Before.bytes (h : Before s t) : Text.bytes s < Text.bytes t := by
  induction s generalizing t
  case nil         =>
    cases t
    case nil      => cases h
    case cons d t =>
      have ⟨b, l, hd⟩ := List.exists_cons_of_ne_nil <| String.utf8EncodeChar_ne_nil (c := d)
      rw [bytes_cons, hd]
      exact List.nil_lt_cons ..
  case cons c s hi =>
    cases t
    case nil      => cases h
    case cons d t =>
      rw [bytes_cons, bytes_cons]
      rcases before_cons_iff.mp h with hl | ⟨rfl, ht⟩
      case inl => exact utf8EncodeChar_lt hl _ _
      case inr => exact List.append_left_lt <| hi ht

theorem bytes_lt_iff : bytes s < bytes t ↔ Before s t := by
  refine ⟨fun h => ?_, Before.bytes⟩
  by_contra hn
  rcases eq_or_ne s t with rfl | he
  case inl => exact List.lt_irrefl _ h
  case inr =>
    have ht := (before_or_before he).resolve_left hn
    exact List.lt_asymm h ht.bytes

end Text

end LogOrigin
