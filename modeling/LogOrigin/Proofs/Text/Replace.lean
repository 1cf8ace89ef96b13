import LogOrigin.Proofs.Lists
import LogOrigin.Text.Scan

-- The search for matches from left to right passes over whole pieces of a text: those that are a
-- match, and those in which no match starts.

namespace LogOrigin.Text.replaceAll

variable {m : Matcher} {w s : Text} {before : Option Char}

theorem go_skip (m : Matcher) (w : Text) (before : Option Char) (s r : Text) :
    go m w before s.length (s ++ r) = go m w (s.getLast?.or before) 0 r := by
  induction s generalizing before
  case nil         => rfl
  case cons c s hi => rw [List.length_cons, List.cons_append, go, hi, Lists.getLast?_cons_or]

theorem go_match {r : Text} (hs : s ≠ []) (h : m before (s ++ r) = some s.length) :
    go m w before 0 (s ++ r) = w ++ go m w (s.getLast?.or before) 0 r := by
  obtain ⟨c, s, rfl⟩ := List.exists_cons_of_ne_nil hs
  rw [List.cons_append, List.length_cons] at h
  rw [List.cons_append, go, h, Lists.getLast?_cons_or, ← go_skip]

-- What stands before a place in the piece is in the piece or before it.
theorem go_keep {r : Text} (h : ∀ a c b, s = a ++ c :: b →
      m (a.getLast?.or before) (c :: (b ++ r)) = none) :
    go m w before 0 (s ++ r) = s ++ go m w (s.getLast?.or before) 0 r := by
  induction s generalizing before
  case nil         => rfl
  case cons c s hi =>
    have hc : m before (c :: (s ++ r)) = none := h [] c s rfl
    have hs := @hi (some c) fun a d b hb => by
      rw [← Lists.getLast?_cons_or c before]
      exact h (c :: a) d b (congrArg (c :: ·) hb)
    rw [List.cons_append, go, hc, hs, Lists.getLast?_cons_or, List.cons_append]

end LogOrigin.Text.replaceAll
