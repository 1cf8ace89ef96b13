import LogOrigin.Text.CharClass

-- Recognisers of text shapes, and the left to right search for their matches.

namespace LogOrigin

namespace Text

-- A reader takes a piece off the front of a text and returns it with what follows.
abbrev Reader := Text → Option (Text × Text)

-- Takes one character for every class of a shape.
def takeShape : List (Char → Bool) → Reader
  | [], t          => some ([], t)
  | _ :: _, []     => none
  | p :: s, c :: t => if p c then (takeShape s t).map fun r => (c :: r.1, r.2) else none

-- Takes one or more characters of a class.
def takeRun (p : Char → Bool) : Reader
  | []     => none
  | c :: t => if p c then some (c :: t.takeWhile p, t.dropWhile p) else none

-- Takes a word without regard to the case of ASCII letters. The word is given in capitals.
def takeWord (word : Text) (t : Text) : Option (Text × Text) :=
  takeShape (word.map fun c d => asciiUpper d == c) t

-- Drops one character if it is the given one.
def dropOptional (c : Char) : Text → Text
  | []     => []
  | d :: t => if d = c then t else d :: t

-- Appends a second reader, whose piece may be missing.
def takeThen (t : Text × Text) (next : Reader) : Text × Text :=
  match next t.2 with
  | some (b, r) => (t.1 ++ b, r)
  | none        => t

theorem takeShape_append {s : List (Char → Bool)} {t a r : Text} (h : takeShape s t = some (a, r)) :
    t = a ++ r := by
  induction s generalizing t a r with
  | nil         => simp_all [takeShape]
  | cons p s hi =>
    cases t with
    | nil      => simp [takeShape] at h
    | cons c t =>
      simp only [takeShape] at h
      split at h
      · obtain ⟨⟨b, u⟩, hb, he⟩ := Option.map_eq_some_iff.1 h
        simp only [Prod.mk.injEq] at he
        rw [← he.1, ← he.2, hi hb, List.cons_append]
      · contradiction

theorem takeShape_length {s : List (Char → Bool)} {t a r : Text} (h : takeShape s t = some (a, r)) :
    a.length = s.length := by
  induction s generalizing t a r with
  | nil         => simp_all [takeShape]
  | cons p s hi =>
    cases t with
    | nil      => simp [takeShape] at h
    | cons c t =>
      simp only [takeShape] at h
      split at h
      · obtain ⟨⟨b, u⟩, hb, he⟩ := Option.map_eq_some_iff.1 h
        simp only [Prod.mk.injEq] at he
        rw [← he.1, List.length_cons, List.length_cons, hi hb]
      · contradiction

-- A matcher says how many characters it takes at a place, given the character before the place.
abbrev Matcher := Option Char → Text → Option Nat

-- Matches what a reader takes, wherever it stands.
def Reader.matcher (r : Reader) : Matcher :=
  fun _ t => (r t).map (·.1.length)

-- The first of two matchers that accepts.
def Matcher.orElse (m n : Matcher) : Matcher :=
  fun b t => (m b t).orElse fun _ => n b t

-- The matches of a text from left to right, without overlaps, each one replaced.
def replaceAll (m : Matcher) (by' : Text) (t : Text) : Text :=
  go none 0 t
where
  -- `skip` characters still belong to a match.
  go (before : Option Char) : Nat → Text → Text
    | _, []            => []
    | skip + 1, c :: t => go (some c) skip t
    | 0, c :: t        =>
      match m before (c :: t) with
      | some (n + 1) => by' ++ go (some c) n t
      | _            => c :: go (some c) 0 t

-- The text of the first match.
def findFirst? (m : Matcher) (t : Text) : Option Text :=
  go none t
where
  go (before : Option Char) : Text → Option Text
    | []     => none
    | c :: t =>
      match m before (c :: t) with
      | some (n + 1) => some ((c :: t).take (n + 1))
      | _            => go (some c) t

end Text

end LogOrigin
