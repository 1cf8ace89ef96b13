import LogOrigin.Proofs.Text.Bytes
import LogOrigin.Search.Glob
import LogOrigin.Text.CharClass

-- The bytes of a text stand among those of another one only where the text itself stands in the other
-- one, because no character begins inside another one.

namespace LogOrigin

namespace Text

variable {c d : Char} {s t : Text} {x y : List UInt8} {b : UInt8}

theorem utf8EncodeChar_inj (h : String.utf8EncodeChar c ++ x = String.utf8EncodeChar d ++ y) :
    c = d ∧ x = y := by
  have irrefl {l m : List UInt8} (hl : l < m) (he : l = m) : False := List.lt_irrefl m (he ▸ hl)
  rcases Nat.lt_trichotomy c.toNat d.toNat with hc | hc | hc
  case inl     => exact (irrefl (utf8EncodeChar_lt hc x y) h).elim
  case inr.inr => exact (irrefl (utf8EncodeChar_lt hc y x) h.symm).elim
  case inr.inl =>
    obtain rfl : c = d := Char.ext <| UInt32.toNat_inj.mp hc
    exact ⟨rfl, List.append_cancel_left h⟩

theorem prefix_of_bytes (h : bytes s <+: bytes t) : s <+: t := by
  induction s generalizing t
  case nil         => exact t.nil_prefix
  case cons c s hi =>
    cases t
    case nil      => simp [bytes, String.utf8EncodeChar_ne_nil] at h
    case cons d t =>
      obtain ⟨r, hr⟩ := h
      rw [bytes_cons, bytes_cons, List.append_assoc] at hr
      obtain ⟨rfl, ht⟩ := utf8EncodeChar_inj hr
      exact List.cons_prefix_cons.mpr ⟨rfl, hi ⟨r, ht⟩⟩

theorem isFirst_of_bytes (h : bytes s ++ x = b :: y) (hs : s ≠ []) : b.IsUTF8FirstByte := by
  cases s
  case nil    => exact absurd rfl hs
  case cons c s =>
    have hl : 0 < (String.utf8EncodeChar c).length :=
      List.length_pos_iff.mpr String.utf8EncodeChar_ne_nil
    have hb : (String.utf8EncodeChar c)[0]? = some b := by
      have hb := congrArg (·[0]?) h
      rw [bytes_cons, List.append_assoc] at hb
      simpa [List.getElem?_append_left hl] using hb
    obtain ⟨_, hb⟩ := List.getElem?_eq_some_iff.mp hb
    exact hb ▸ UInt8.isUTF8FirstByte_getElem_utf8EncodeChar.mpr rfl

-- By induction on the longer text: the bytes of its first character are all in front of the others,
-- or the others begin with them.
theorem infix_of_bytes (hs : s ≠ []) (h : bytes t = x ++ (bytes s ++ y)) : s <:+: t := by
  induction t generalizing x
  case nil         =>
    cases s
    case nil  => exact absurd rfl hs
    case cons => simp [bytes, String.utf8EncodeChar_ne_nil] at h
  case cons d t hi =>
    rw [bytes_cons] at h
    rcases List.append_eq_append_iff.mp h with ⟨l, rfl, hl⟩ | ⟨l, hl, hr⟩
    case inl => exact (hi hl).trans (List.suffix_cons d t).isInfix
    case inr =>
      cases l
      case nil      => exact (hi (x := []) hr.symm).trans (List.suffix_cons d t).isInfix
      case cons b l =>
        cases x
        case nil    =>
          have hp : bytes s <+: bytes (d :: t) := ⟨y, by rw [bytes_cons, hl]; exact hr⟩
          exact (prefix_of_bytes hp).isInfix
        case cons a x =>
          have first := isFirst_of_bytes hr hs
          have hb : (String.utf8EncodeChar d)[x.length + 1]? = some b := by
            rw [hl]
            simp
          obtain ⟨_, hb⟩ := List.getElem?_eq_some_iff.mp hb
          rw [← hb, UInt8.isUTF8FirstByte_getElem_utf8EncodeChar] at first
          cases first

section Ascii

theorem utf8EncodeChar_ascii (h : c.toNat < 128) :
    String.utf8EncodeChar c = [UInt8.ofNat c.toNat] := by
  have hc : c.val.toNat ≤ 127 := Nat.le_of_lt_succ h
  unfold String.utf8EncodeChar
  exact if_pos hc

-- Outside ASCII all bytes of a character are great ones.
theorem le_of_mem_utf8EncodeChar (h : 128 ≤ c.toNat) (hb : b ∈ String.utf8EncodeChar c) :
    128 ≤ b.toNat := by
  have great {m : Nat} (hl : 128 ≤ m) (hm : m < 256) : 128 ≤ (UInt8.ofNat m).toNat := by
    rwa [UInt8.toNat_ofNat', Nat.mod_eq_of_lt hm]
  have hc : ¬c.val.toNat ≤ 127 := Nat.not_le.mpr h
  unfold String.utf8EncodeChar at hb
  dsimp only at hb
  generalize c.val.toNat = n at hc hb
  rw [if_neg hc] at hb
  split_ifs at hb
  all_goals
    simp only [List.mem_cons, List.not_mem_nil, or_false] at hb
  case pos  => rcases hb with rfl | rfl <;> exact great (by omega) (by omega)
  case pos  => rcases hb with rfl | rfl | rfl <;> exact great (by omega) (by omega)
  case neg  => rcases hb with rfl | rfl | rfl | rfl <;> exact great (by omega) (by omega)

theorem isAsciiUpper_iff : isAsciiUpper c = true ↔ 65 ≤ c.toNat ∧ c.toNat ≤ 90 := by
  rw [isAsciiUpper, Bool.and_eq_true, decide_eq_true_eq, decide_eq_true_eq]
  exact Iff.rfl

theorem lowerByte_iff : (65 ≤ b && b ≤ 90) = true ↔ 65 ≤ b.toNat ∧ b.toNat ≤ 90 := by
  simp [UInt8.le_iff_toNat_le]

theorem asciiLower_upper (h : isAsciiUpper c = true) : (asciiLower c).toNat = c.toNat + 32 := by
  have hc := isAsciiUpper_iff.mp h
  have hv : (c.toNat + 32).isValidChar := .inl (by omega)
  rw [asciiLower, if_pos h, Char.ofNat, dif_pos hv]
  rfl

theorem utf8EncodeChar_asciiLower (c : Char) :
    String.utf8EncodeChar (asciiLower c) = (String.utf8EncodeChar c).map Glob.lowerByte := by
  by_cases hu : isAsciiUpper c = true
  case pos =>
    have hc := isAsciiUpper_iff.mp hu
    have hl := asciiLower_upper hu
    have hn : (UInt8.ofNat c.toNat).toNat = c.toNat := by
      rw [UInt8.toNat_ofNat', Nat.mod_eq_of_lt (by omega)]
    have hb : Glob.lowerByte (UInt8.ofNat c.toNat) = UInt8.ofNat (c.toNat + 32) := by
      rw [Glob.lowerByte, if_pos (lowerByte_iff.mpr (by rwa [hn]))]
      simp
    rw [utf8EncodeChar_ascii (by omega), utf8EncodeChar_ascii (by omega), List.map_singleton, hb, hl]
  case neg =>
    have hb : ∀ b ∈ String.utf8EncodeChar c, Glob.lowerByte b = b := by
      intro b hb
      refine if_neg fun hn => ?_
      have hn := lowerByte_iff.mp hn
      by_cases hc : c.toNat < 128
      case pos =>
        rw [utf8EncodeChar_ascii hc, List.mem_singleton] at hb
        rw [hb, UInt8.toNat_ofNat', Nat.mod_eq_of_lt (by omega)] at hn
        exact hu <| isAsciiUpper_iff.mpr hn
      case neg =>
        have := le_of_mem_utf8EncodeChar (Nat.not_lt.mp hc) hb
        omega
    rw [asciiLower, if_neg hu, List.map_congr_left hb, List.map_id']

theorem bytes_map_asciiLower (t : Text) :
    bytes (t.map asciiLower) = (bytes t).map Glob.lowerByte := by
  induction t
  case nil         => rfl
  case cons c t hi =>
    rw [List.map_cons, bytes_cons, bytes_cons, List.map_append, hi, utf8EncodeChar_asciiLower]

theorem slash_mem_bytes_iff : Glob.slash ∈ bytes t ↔ '/' ∈ t := by
  have hc (c : Char) : Glob.slash ∈ String.utf8EncodeChar c ↔ '/' = c := by
    by_cases hc : c.toNat < 128
    case pos =>
      rw [utf8EncodeChar_ascii hc, List.mem_singleton, UInt8.ext_iff, UInt8.toNat_ofNat',
        Nat.mod_eq_of_lt (by omega)]
      exact ⟨fun h => Char.ext <| UInt32.toNat_inj.mp h, fun h => h ▸ rfl⟩
    case neg =>
      refine iff_of_false (fun hb => ?_) (fun he => hc <| he ▸ by decide)
      have := le_of_mem_utf8EncodeChar (Nat.not_lt.mp hc) hb
      revert this
      decide
  simp [bytes, List.mem_flatMap, hc]

end Ascii

end Text

end LogOrigin
