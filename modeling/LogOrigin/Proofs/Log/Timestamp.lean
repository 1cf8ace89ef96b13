import LogOrigin.Proofs.Log.Header

-- Timestamps and clock times inside a text: those with a space behind them are found as a whole,
-- and none is found where the characters that they need are missing.

namespace LogOrigin

open Text

namespace Timestamp

variable {before : Option Char} {t s r : Text}

-- A timestamp has a dash behind its first digits.
theorem exists_dash {x : Text × Text} (h : take t = some x) :
    ∃ a b, t = a ++ '-' :: b ∧ ∀ c ∈ a, isDigit c = true := by
  obtain ⟨⟨u, r⟩, hs, _⟩ := Option.map_eq_some_iff.mp h
  rw [takeShape_append hs]
  rcases fits_of_takeShape hs with _ | ⟨h₁, _ | ⟨h₂, _ | ⟨h₃, _ | ⟨h₄, _ | ⟨hd, _⟩⟩⟩⟩⟩
  obtain rfl := beq_iff_eq.mp hd
  exact ⟨[_, _, _, _], _, rfl, by simp [h₁, h₂, h₃, h₄]⟩

theorem matcher_eq_none (hs : '-' ∉ s) (hr : ∀ c ∈ r.head?, c ≠ '-' ∧ isDigit c = false)
    (before : Option Char) : matcher before (s ++ r) = none := by
  refine Option.map_eq_none_iff.mpr <| Option.eq_none_iff_forall_ne_some.mpr fun x h => ?_
  obtain ⟨a, b, ht, ha⟩ := exists_dash h
  rcases List.append_eq_append_iff.mp ht with ⟨u, rfl, rfl⟩ | ⟨u, rfl, hu⟩
  case inl =>
    cases u
    case nil      => exact (hr _ rfl).1 rfl
    case cons c u =>
      have hc := ha c (by simp)
      rw [(hr c rfl).2] at hc
      cases hc
  case inr =>
    cases u
    case nil      => exact (hr '-' (by rw [← List.nil_append r, ← hu]; rfl)).1 rfl
    case cons c u =>
      obtain ⟨rfl, _⟩ := List.cons.inj hu
      exact hs (by simp)

theorem IsTimestamp.matcher (h : IsTimestamp t) (before : Option Char) (r : Text) :
    matcher before (t ++ ' ' :: r) = some t.length := by
  rw [Timestamp.matcher, Reader.matcher, h.take]
  rfl

end Timestamp

namespace Clock

-- Two digits each for hours, minutes and seconds.
def shape : List (Char → Bool) :=
  [isDigit, isDigit, isColon, isDigit, isDigit, isColon, isDigit, isDigit]

-- A time with a fraction of a second that may be missing.
inductive IsTime : Text → Prop
  | of {t f} : Fits shape t → Timestamp.IsFraction f → IsTime (t ++ f)

variable {before : Option Char} {s t : Text}

theorem matcher_eq_none (h : t.head?.any isDigit = false) (before : Option Char) :
    matcher before t = none := by
  have ht (l : List (Char → Bool)) : takeShape (isDigit :: l) t = none := by
    cases t
    case nil      => rfl
    case cons c t => simp [takeShape, show isDigit c = false from h]
  simp [matcher, Matcher.orElse, matcherOf, ht]

theorem matcher_inside (h : isBoundary before t.head? = false) : matcher before t = none := by
  simp [matcher, Matcher.orElse, matcherOf, h]

theorem exists_last (h : Fits shape t) : ∃ u c, t = u ++ [c] ∧ isDigit c = true := by
  rcases h with _ | ⟨_, _ | ⟨_, _ | ⟨_, _ | ⟨_, _ | ⟨_, _ | ⟨_, _ | ⟨_, _ | ⟨hd, _ | _⟩⟩⟩⟩⟩⟩⟩⟩
  exact ⟨[_, _, _, _, _, _, _], _, rfl, hd⟩

-- Both with and without a fraction a time ends in a digit, so that a space closes it.
theorem close_eq_some {f : Text} (ht : Fits shape t) (hf : Timestamp.IsFraction f) (r : Text) :
    close Timestamp.isFractionMark (t, f ++ ' ' :: r) = some (t ++ f).length := by
  have hs : isWord ' ' = false := rfl
  cases hf
  case none              =>
    obtain ⟨u, c, rfl, hc⟩ := exists_last ht
    have hm : Timestamp.isFractionMark ' ' = false := rfl
    simp [close, Timestamp.takeFraction, hm, isBoundary, isWord_of_isDigit hc, hs]
  case some c d u hm hd hu =>
    have hr : Timestamp.takeFraction Timestamp.isFractionMark (c :: d :: u ++ ' ' :: r) =
        some (c :: d :: u, ' ' :: r) := by
      have hs : isDigit ' ' = false := rfl
      simp [Timestamp.takeFraction, takeRun, hm, hd, List.takeWhile_append_of_pos hu,
        List.dropWhile_append_of_pos hu, hs]
    have hu : ∀ e ∈ d :: u, isDigit e = true := List.forall_mem_cons.mpr ⟨hd, hu⟩
    have hl : isWord ((d :: u).getLast (by simp)) = true :=
      isWord_of_isDigit <| hu _ (List.getLast_mem _)
    have hb : isBoundary (c :: d :: u).getLast? (' ' :: r).head? = true := by
      rw [List.getLast?_eq_some_getLast (by simp), List.getLast_cons_cons]
      simp [isBoundary, hl, hs]
    rw [close, hr]
    simp only [hb, if_true, List.length_append]

theorem IsTime.matcher (h : IsTime s) (hb : before.any isWord = false) (r : Text) :
    matcher before (s ++ ' ' :: r) = some s.length := by
  cases h
  case of t f ht hf =>
    have hh : isBoundary before (t ++ f ++ ' ' :: r).head? = true := by
      rcases ht with _ | ⟨hd, _⟩
      simp [isBoundary, hb, isWord_of_isDigit hd]
    have hs : takeShape shape (t ++ f ++ ' ' :: r) = some (t, f ++ ' ' :: r) := by
      rw [List.append_assoc, ht.takeShape]
    have hm : matcherOf [isDigit, isDigit] Timestamp.isFractionMark before (t ++ f ++ ' ' :: r) =
        some (t ++ f).length := by
      rw [matcherOf, if_pos hh, ← close_eq_some ht hf r]
      exact congrArg (Option.bind · _) hs
    rw [Clock.matcher, Matcher.orElse, hm]
    rfl

theorem IsTime.ne_nil (h : IsTime s) : s ≠ [] := by
  cases h
  case of ht _ =>
    cases ht
    simp

theorem IsTime.dash_notMem (h : IsTime s) : '-' ∉ s := by
  cases h
  case of t f ht hf =>
    have hd : isDigit '-' = false := rfl
    have hs : ∀ p ∈ shape, p '-' = false := by simp [shape, hd, isColon]
    have hf : '-' ∉ f := by
      cases hf
      case none          => simp
      case some hm hc hu =>
        rintro (_ | ⟨_, _ | ⟨_, hu'⟩⟩)
        · cases hm
        · cases hc
        · cases hu _ hu'
    exact fun hm => (List.mem_append.mp hm).elim (ht.notMem hs) hf

end Clock

end LogOrigin
