import LogOrigin.Json.Reader
import LogOrigin.Proofs.Text.Trim
import Mathlib.Data.List.Basic

-- Numbers and strings as they are written in documents. What their readers take off the front of a
-- text is read in the same way whatever comes after it, as long as it cannot go on with that.

namespace LogOrigin

namespace Text

variable {p : Char → Bool} {r : Text}

theorem span_append (t : Text) (hr : ∀ c ∈ r.head?, p c = false) :
    (t.takeWhile p ++ r).takeWhile p = t.takeWhile p ∧ (t.takeWhile p ++ r).dropWhile p = r :=
  span_run (List.all_eq_true.mp List.all_takeWhile) hr

theorem isAsciiDigit_eq {c : Char} (h : isAsciiDigit c = true) :
    ¬(c = '-' ∨ c = '+' ∨ c = '.' ∨ c = 'e' ∨ c = 'E') := by
  rintro (rfl | rfl | rfl | rfl | rfl) <;> exact absurd h (by decide)

end Text

namespace JsonNumber

open Text

variable {t u r whole : Text} {n : JsonNumber} {minus : Bool} {x : Option (Bool × Nat)}

-- Nothing that a number could go on with.
def Apart (r : Text) : Prop :=
  ∀ c ∈ r.head?, isAsciiDigit c = false ∧ c ≠ '.' ∧ c ≠ 'e' ∧ c ≠ 'E'

-- An exponent part, or none at all.
def StartsExponent (t : Text) : Prop :=
  ∀ c ∈ t.head?, c = 'e' ∨ c = 'E'

-- What may come after the whole part of a number, or nothing.
def StartsFraction (t : Text) : Prop :=
  ∀ c ∈ t.head?, c = '.' ∨ c = 'e' ∨ c = 'E'

theorem StartsExponent.no_point (ht : StartsExponent t) (hu : Apart u) :
    ∀ c ∈ (t ++ u).head?, isAsciiDigit c = false ∧ c ≠ '.' := by
  cases t
  case nil      => exact fun c hc => ⟨(hu c hc).1, (hu c hc).2.1⟩
  case cons d t =>
    rintro _ ⟨⟩
    rcases ht d rfl with rfl | rfl <;> decide

theorem StartsFraction.no_digit (ht : StartsFraction t) (hu : Apart u) :
    ∀ c ∈ (t ++ u).head?, isAsciiDigit c = false := by
  cases t
  case nil      => exact fun c hc => (hu c hc).1
  case cons d t =>
    rintro _ ⟨⟩
    rcases ht d rfl with rfl | rfl | rfl <;> decide

-- The sign of an exponent, if there is one, is found in front of any digit.
theorem exists_sign (t : Text) : ∃ s, t = s ++ (Decimal.splitSign t).2 ∧
    ∀ d u, isAsciiDigit d = true →
      Decimal.splitSign (s ++ d :: u) = ((Decimal.splitSign t).1, d :: u) := by
  unfold Decimal.splitSign
  split
  case h_1 => exact ⟨['+'], rfl, fun _ _ _ => rfl⟩
  case h_2 => exact ⟨['-'], rfl, fun _ _ _ => rfl⟩
  case h_3 =>
    refine ⟨[], rfl, fun d u hd => ?_⟩
    have hd := isAsciiDigit_eq hd
    split
    case h_1 => simp_all
    case h_2 => simp_all
    case h_3 => rfl

theorem readExponent_eq (h : ∀ c ∈ t.head?, c ≠ 'e' ∧ c ≠ 'E') : readExponent t = some (none, t) := by
  cases t
  case nil      => rfl
  case cons c t => simp [readExponent, h c rfl]

-- The digits of an exponent end where the rest begins, so the rest may be any other text that is
-- apart. A missing exponent stays missing in front of such a text.
theorem exists_readExponent (h : readExponent t = some (x, r)) : ∃ c, t = c ++ r ∧
    StartsExponent c ∧ ∀ u, Apart u → readExponent (c ++ u) = some (x, u) := by
  by_cases he : ∃ c ∈ t.head?, c = 'e' ∨ c = 'E'
  case neg =>
    rw [readExponent_eq (by simpa using he)] at h
    cases h
    exact ⟨[], rfl, nofun, fun u hu => readExponent_eq fun c hc => (hu c hc).2.2⟩
  case pos =>
    obtain ⟨e, ht, he⟩ := he
    obtain ⟨t, rfl⟩ := List.head?_eq_some_iff.mp ht
    have hi : (e = 'e' || e = 'E') = true := by simpa using he
    have ⟨s, hs, hu⟩ := exists_sign t
    simp only [readExponent, hi, if_true] at h
    generalize Decimal.splitSign t = signed at h hs hu
    obtain ⟨minus, digits⟩ := signed
    obtain ⟨hn, hx⟩ := Option.ite_none_left_eq_some.mp h
    cases hx
    refine ⟨e :: (s ++ digits.takeWhile isAsciiDigit), by simp [hs], ?_, fun u ha => ?_⟩
    case refine_1 =>
      rintro _ ⟨⟩
      exact he
    case refine_2 =>
      have ⟨htake, hdrop⟩ := span_append digits fun c hc => (ha c hc).1
      obtain ⟨d, ds, hds⟩ := List.exists_cons_of_ne_nil (mt List.isEmpty_iff.mpr hn)
      have hd : isAsciiDigit d = true :=
        List.all_eq_true.mp List.all_takeWhile d (hds ▸ List.mem_cons_self)
      have hsplit := hu d (ds ++ u) hd
      rw [← List.cons_append, ← hds] at hsplit
      simp only [List.cons_append, List.append_assoc, readExponent, hi, if_true, hsplit, htake,
        hdrop, hn, Bool.false_eq_true, if_false]

theorem readFraction_eq_some (h : ∀ c ∈ t.head?, c ≠ '.') :
    readFraction minus whole t = some (n, r) ↔
      ∃ x, readExponent t = some (x, r) ∧ ofWhole minus whole x = some n := by
  have (t' : Text) : t ≠ '.' :: t' := by
    rintro rfl
    exact h '.' rfl rfl
  rw [readFraction]
  · simp [Option.bind_eq_some_iff]
  · exact this

theorem readFraction_point : readFraction minus whole ('.' :: t) = some (n, r) ↔
    t.takeWhile isAsciiDigit ≠ [] ∧
      ∃ x, readExponent (t.dropWhile isAsciiDigit) = some (x, r) ∧
        ofFraction minus whole (t.takeWhile isAsciiDigit) x = some n := by
  simp [readFraction, Option.bind_eq_some_iff]

theorem exists_readFraction (h : readFraction minus whole t = some (n, r)) : ∃ c, t = c ++ r ∧
    StartsFraction c ∧ ∀ u, Apart u → readFraction minus whole (c ++ u) = some (n, u) := by
  by_cases hp : '.' ∈ t.head?
  case pos =>
    obtain ⟨t, rfl⟩ := List.head?_eq_some_iff.mp hp
    have ⟨hd, x, he, hx⟩ := readFraction_point.mp h
    have ⟨c, hc, hs, hu⟩ := exists_readExponent he
    refine ⟨'.' :: (t.takeWhile isAsciiDigit ++ c), ?_, ?_, fun u hu' => ?_⟩
    case refine_1 => simp [← hc, List.takeWhile_append_dropWhile]
    case refine_2 =>
      rintro _ ⟨⟩
      exact .inl rfl
    case refine_3 =>
      have ⟨htake, hdrop⟩ := span_append t fun c hc => (hs.no_point hu' c hc).1
      rw [List.cons_append, List.append_assoc, readFraction_point, htake, hdrop]
      exact ⟨hd, x, hu u hu', hx⟩
  case neg =>
    have ⟨x, he, hx⟩ := (readFraction_eq_some fun c hc he => hp (he ▸ hc)).mp h
    have ⟨c, hc, hs, hu⟩ := exists_readExponent he
    exact ⟨c, hc, fun d hd => .inr (hs d hd), fun u hu' =>
      (readFraction_eq_some fun d hd => (hs.no_point hu' d hd).2).mpr ⟨x, hu u hu', hx⟩⟩

-- A whole part is all the digits there are, and a zero stands alone.
def IsWhole (whole t : Text) : Prop :=
  whole ≠ [] ∧ (∀ c ∈ whole, isAsciiDigit c = true) ∧ (whole.head? = some '0' → whole = ['0']) ∧
    ∀ c ∈ t.head?, isAsciiDigit c = false

theorem IsWhole.readUnsigned_eq (h : IsWhole whole t) :
    readUnsigned minus (whole ++ t) = readFraction minus whole t := by
  obtain ⟨hn, hd, hz, ht⟩ := h
  obtain ⟨d, w, rfl⟩ := List.exists_cons_of_ne_nil hn
  have hw : (if (d :: w ++ t).head? = some '0' then ['0'] else (d :: w ++ t).takeWhile isAsciiDigit)
      = d :: w := by
    split
    case isTrue h0 => exact (hz h0).symm
    case isFalse   =>
      rw [List.takeWhile_append_of_pos hd]
      cases t <;> simp_all
  have ha : t.head?.any isAsciiDigit = false := by
    cases t <;> simp_all
  simp only [readUnsigned, hw, List.drop_left, ha]
  simp

theorem exists_isWhole (h : readUnsigned minus t = some (n, r)) :
    ∃ whole t', t = whole ++ t' ∧ IsWhole whole t' := by
  simp only [readUnsigned, Option.ite_none_left_eq_some] at h
  obtain ⟨hn, -⟩ := h
  by_cases h0 : t.head? = some '0'
  case pos =>
    obtain ⟨t, rfl⟩ := List.head?_eq_some_iff.mp h0
    refine ⟨['0'], t, rfl, nofun, by simp [isAsciiDigit], fun _ => rfl, ?_⟩
    intro c hc
    simpa [Option.mem_def.mp hc] using hn
  case neg =>
    simp only [h0, if_false] at hn
    refine ⟨t.takeWhile isAsciiDigit, t.dropWhile isAsciiDigit,
      List.takeWhile_append_dropWhile.symm, ?_, List.all_eq_true.mp List.all_takeWhile, ?_, ?_⟩
    case refine_1 =>
      intro he
      simp [he] at hn
    case refine_2 =>
      intro hz
      cases t <;> simp_all [List.takeWhile_cons]
    case refine_3 =>
      intro c hc
      have := List.head?_dropWhile_not isAsciiDigit t
      rwa [Option.mem_def.mp hc] at this

-- A number without its sign and what may come after it.
theorem exists_readUnsigned (h : readUnsigned minus t = some (n, r)) : ∃ d c, t = d :: c ++ r ∧
    isAsciiDigit d = true ∧ ∀ u, Apart u → readUnsigned minus (d :: c ++ u) = some (n, u) := by
  obtain ⟨whole, t, rfl, hw⟩ := exists_isWhole h
  have ⟨hn, hd, hz, ht⟩ := hw
  obtain ⟨d, w, rfl⟩ := List.exists_cons_of_ne_nil hn
  have ⟨c, hc, hs, hu⟩ := exists_readFraction (hw.readUnsigned_eq ▸ h)
  refine ⟨d, w ++ c, by simp [hc], hd d List.mem_cons_self, fun u hu' => ?_⟩
  have hw' : IsWhole (d :: w) (c ++ u) := ⟨hn, hd, hz, hs.no_digit hu'⟩
  rw [← List.cons_append, List.append_assoc, hw'.readUnsigned_eq]
  exact hu u hu'

theorem read_eq (h : t.head? ≠ some '-') : read t = readUnsigned false t := by
  rw [read]
  rintro _ rfl
  exact h rfl

-- What is read of a number does not depend on what comes after it, if that is apart from it.
theorem exists_read (h : read t = some (n, r)) : ∃ d c, t = d :: c ++ r ∧
    (d = '-' ∨ isAsciiDigit d = true) ∧ ∀ u, Apart u → read (d :: c ++ u) = some (n, u) := by
  by_cases hm : t.head? = some '-'
  case pos =>
    obtain ⟨t, rfl⟩ := List.head?_eq_some_iff.mp hm
    have ⟨d, c, ht, _, hu⟩ := exists_readUnsigned h
    exact ⟨'-', d :: c, by rw [ht]; rfl, .inl rfl, hu⟩
  case neg =>
    have ⟨d, c, ht, hd, hu⟩ := exists_readUnsigned (read_eq hm ▸ h)
    refine ⟨d, c, ht, .inr hd, fun u hu' => ?_⟩
    rw [read_eq (by simpa [ht] using hm)]
    exact hu u hu'

end JsonNumber

namespace Json

variable {t u r s : Text} {c : Char} {n : Nat}

-- Escapes end by themselves: what comes after them is never looked at.
theorem exists_readHex (h : readHex t = some (n, r)) :
    ∃ e, t = e ++ r ∧ ∀ u, readHex (e ++ u) = some (n, u) := by
  unfold readHex at h
  split at h
  case h_1 a b c d t =>
    simp only [Option.bind_eq_bind, Option.bind_eq_some_iff, Option.pure_def] at h
    obtain ⟨a', ha, b', hb, c', hc, d', hd, hr⟩ := h
    cases hr
    exact ⟨[a, b, c, d], rfl, fun u => by simp [readHex, ha, hb, hc, hd]⟩
  case h_2 => cases h

theorem exists_readUnicode (h : readUnicode t = some (c, r)) :
    ∃ e, t = e ++ r ∧ ∀ u, readUnicode (e ++ u) = some (c, u) := by
  simp only [readUnicode, Option.bind_eq_bind, Option.bind_eq_some_iff] at h
  obtain ⟨⟨n, t'⟩, hn, h⟩ := h
  obtain ⟨e, rfl, he⟩ := exists_readHex hn
  split at h
  case isTrue high =>
    split at h
    case h_1 t ht =>
      obtain rfl : t' = '\\' :: 'u' :: t := ht
      obtain ⟨⟨m, t'⟩, hm, h⟩ := Option.bind_eq_some_iff.mp h
      obtain ⟨f, rfl, hf⟩ := exists_readHex hm
      obtain ⟨low, hr⟩ := Option.ite_none_right_eq_some.mp h
      simp only [Option.pure_def, Option.some.injEq, Prod.mk.injEq] at hr
      obtain ⟨rfl, rfl⟩ := hr
      refine ⟨e ++ '\\' :: 'u' :: f, by simp, fun u => ?_⟩
      simp only [readUnicode, List.append_assoc, List.cons_append, he, Option.bind_eq_bind,
        Option.bind_some, high, if_true, hf, low, Option.pure_def]
    case h_2 => cases h
  case isFalse high =>
    obtain ⟨low, hr⟩ := Option.ite_none_left_eq_some.mp h
    cases hr
    refine ⟨e, rfl, fun u => ?_⟩
    simp only [readUnicode, he, Option.bind_eq_bind, Option.bind_some, high, low,
      Bool.false_eq_true, if_false, Option.pure_def]

theorem exists_readEscape (h : readEscape t = some (c, r)) :
    ∃ e, t = e ++ r ∧ ∀ u, readEscape (e ++ u) = some (c, u) := by
  unfold readEscape at h
  split at h
  case h_9 t =>
    have ⟨e, ht, he⟩ := exists_readUnicode h
    exact ⟨'u' :: e, by rw [ht]; rfl, he⟩
  case h_10 => cases h
  all_goals
    cases h
    exact ⟨[_], rfl, fun _ => rfl⟩

theorem readEscape_append (h : readEscape t = some (c, [])) (u : Text) :
    readEscape (t ++ u) = some (c, u) := by
  obtain ⟨e, rfl, he⟩ := exists_readEscape h
  simpa using he u

-- A string after its opening quote, up to the closing one, with the characters it stands for.
inductive Quoted : Text → Text → Prop
  | close : Quoted ['"'] []
  | escape {e t s : Text} {c : Char} :
    readEscape e = some (c, []) → Quoted t s → Quoted ('\\' :: (e ++ t)) (c :: s)
  | plain {t s : Text} {c : Char} :
    c ≠ '"' → c ≠ '\\' → 32 ≤ c.toNat → Quoted t s → Quoted (c :: t) (c :: s)

-- `a` holds what has been read of the string before.
theorem exists_quoted {f : Nat} {a : Text} (h : readString f a t = some (s, r)) :
    ∃ q s', t = q ++ r ∧ s = a.reverse ++ s' ∧ Quoted q s' := by
  fun_induction readString f a t
  case case1 => cases h
  case case2 => cases h
  case case3 =>
    cases h
    exact ⟨['"'], [], rfl, by simp, .close⟩
  case case4 c t hc hi =>
    obtain ⟨q, s', rfl, rfl, hq⟩ := hi h
    obtain ⟨e, rfl, he⟩ := exists_readEscape hc
    exact ⟨'\\' :: (e ++ q), c :: s', by simp, by simp, .escape (by simpa using he []) hq⟩
  case case5 => cases h
  case case6 => cases h
  case case7 c t hq hb hc hi =>
    obtain ⟨q, s', rfl, rfl, hs⟩ := hi h
    exact ⟨c :: q, c :: s', rfl, by simp, .plain hq hb (Nat.le_of_not_lt hc) hs⟩

-- A string is read up to its closing quote, whatever comes after it.
theorem Quoted.readString_append (h : Quoted t s) {f : Nat} (hf : t.length ≤ f) (a u : Text) :
    readString f a (t ++ u) = some (a.reverse ++ s, u) := by
  induction h generalizing f a <;> cases f <;> simp at hf
  case close                       => simp [readString]
  case escape e t s c he _ hi f    =>
    have := hi (by omega : t.length ≤ f) (c :: a)
    simp [readString, readEscape_append he, this]
  case plain t s c hq hb hc _ hi f =>
    rw [List.cons_append, readString, if_neg (Nat.not_lt.mpr hc), hi hf]
    · simp
    · exact hq
    · exact hb

end Json

end LogOrigin
