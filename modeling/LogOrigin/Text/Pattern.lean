import LogOrigin.Text.Blank
import LogOrigin.Text.CharClass

-- Patterns whose matches are tried in a fixed order: alternatives from left to right, repetitions
-- the longest first unless they are shy.

namespace LogOrigin

namespace Text

-- The parts of a match that are kept.
inductive Slot where
  | name
  | result
  deriving DecidableEq

inductive Pattern where
  | empty
  | start
  | finish
  | boundary
  | char (p : Char → Bool)
  | run (least : Nat) (p : Char → Bool)
  | shyRun (p : Char → Bool)
  | seq (a b : Pattern)
  | alt (a b : Pattern)
  | many (a : Pattern)
  | keep (slot : Slot) (a : Pattern)

namespace Pattern

-- A part of a text: the text from where the part starts, and what follows the part.
structure Part where
  text : Text
  rest : Text

def Part.toText (p : Part) : Text :=
  p.text.take (p.text.length - p.rest.length)

-- A place in a text by the number of characters before it, with those reversed, with what stands
-- after it, and with the parts kept on the way there.
structure Place where
  index  : Nat
  before : Text
  after  : Text
  kept   : List (Slot × Part)

def Place.ofText (t : Text) : Place := ⟨0, [], t, []⟩

-- The place after the next character.
def Place.next? (p : Place) : Option (Char × Place) :=
  match p.after with
  | []     => none
  | c :: t => some (c, ⟨p.index + 1, c :: p.before, t, p.kept⟩)

def Place.kept? (p : Place) (s : Slot) : Option Text :=
  (p.kept.find? (·.1 = s)).map (·.2.toText)

-- The place with the part kept that starts at another place.
def Place.keeping (p : Place) (s : Slot) (start : Place) : Place :=
  { p with kept := (s, ⟨start.after, p.after⟩) :: p.kept }

-- The places up to which characters of a class go on, the farthest one first. The first `least`
-- characters are passed over.
def runPlaces (p : Char → Bool) (least : Nat) (place : Place) : List Place :=
  go place.kept least [] place.index place.before place.after
where
  go (kept : List (Slot × Part)) (least : Nat) (acc : List Place) (index : Nat) (before : Text) :
      Text → List Place
    | []     => if least = 0 then ⟨index, before, [], kept⟩ :: acc else acc
    | c :: t =>
      let acc := if least = 0 then ⟨index, before, c :: t, kept⟩ :: acc else acc
      if p c then go kept (least - 1) acc (index + 1) (c :: before) t else acc

-- The places that are reached by repeating a step, which must make progress.
def manyPlaces (step : Place → List Place) : Nat → Place → List Place
  | 0, p        => [p]
  | fuel + 1, p =>
    (step p).flatMap (fun q =>
      if p.index < q.index then manyPlaces step fuel q else []) ++ [p]

-- The ends of the matches that start at a place, the preferred one first.
def ends : Pattern → Place → List Place
  | empty, p      => [p]
  | start, p      => if p.before.isEmpty then [p] else []
  | finish, p     => if p.after.isEmpty then [p] else []
  | boundary, p   => if isBoundary p.before.head? p.after.head? then [p] else []
  | char f, p     => ((p.next?.filter fun n => f n.1).map (·.2)).toList
  | run n f, p    => runPlaces f n p
  | shyRun f, p   => (runPlaces f 0 p).reverse
  | seq a b, p    => (a.ends p).flatMap b.ends
  | alt a b, p    => a.ends p ++ b.ends p
  | many a, p     => manyPlaces a.ends p.after.length p
  | keep s a, p   => (a.ends p).map (·.keeping s p)

-- What a search finds first after repetitions of a step.
def manyFind {α : Type} (step : Place → (Place → Option α) → Option α) (k : Place → Option α) :
    Nat → Place → Option α
  | 0, p        => k p
  | fuel + 1, p =>
    (step p fun q =>
      if p.index < q.index then manyFind step k fuel q else none).or (k p)

-- What a search finds first at the ends of the matches. No end is tried that comes after it.
def find {α : Type} : Pattern → Place → (Place → Option α) → Option α
  | empty, p, k      => k p
  | start, p, k      => if p.before.isEmpty then k p else none
  | finish, p, k     => if p.after.isEmpty then k p else none
  | boundary, p, k   => if isBoundary p.before.head? p.after.head? then k p else none
  | char f, p, k     => (p.next?.filter fun n => f n.1).bind fun n => k n.2
  | run n f, p, k    => (runPlaces f n p).findSome? k
  | shyRun f, p, k   => (runPlaces f 0 p).reverse.findSome? k
  | seq a b, p, k    => a.find p fun q => b.find q k
  | alt a b, p, k    => (a.find p k).or (b.find p k)
  | many a, p, k     => manyFind a.find k p.after.length p
  | keep s a, p, k   => a.find p fun q => k (q.keeping s p)

theorem findSome?_flatMap {α β γ : Type} (f : α → List β) (k : β → Option γ) (l : List α) :
    (l.flatMap f).findSome? k = l.findSome? fun a => (f a).findSome? k := by
  induction l with
  | nil => rfl
  | cons a l ih =>
    simp only [List.flatMap_cons, List.findSome?_append, List.findSome?_cons, ih]
    cases (f a).findSome? k <;> rfl

theorem manyFind_eq {α : Type} {step : Place → (Place → Option α) → Option α}
    {places : Place → List Place} (h : ∀ p k, step p k = (places p).findSome? k)
    (k : Place → Option α) (fuel : Nat) (p : Place) :
    manyFind step k fuel p = (manyPlaces places fuel p).findSome? k := by
  induction fuel generalizing p with
  | zero => simp [manyFind, manyPlaces]
  | succ fuel ih =>
    simp only [manyFind, manyPlaces, h, List.findSome?_append, findSome?_flatMap]
    congr 1
    · congr 1
      funext q
      split <;> simp [ih]
    · simp

-- A search finds what the first of the ends has to offer.
theorem find_eq {α : Type} (a : Pattern) (p : Place) (k : Place → Option α) :
    a.find p k = (a.ends p).findSome? k := by
  induction a generalizing p k with
  | empty => simp [find, ends]
  | start => simp only [find, ends]; split <;> simp
  | finish => simp only [find, ends]; split <;> simp
  | boundary => simp only [find, ends]; split <;> simp
  | char f =>
    simp only [find, ends]
    cases p.next?.filter fun n => f n.1 <;> simp
  | run n f => rfl
  | shyRun f => rfl
  | seq a b iha ihb => simp only [find, ends, iha, ihb, findSome?_flatMap]
  | alt a b iha ihb => simp only [find, ends, iha, ihb, List.findSome?_append]
  | many a ih => exact manyFind_eq ih k _ p
  | keep s a ih =>
    simp only [find, ends, ih, List.findSome?_map]
    rfl

-- The end of the preferred match at the front of a text.
def match? (a : Pattern) (t : Text) : Option Place :=
  a.find (.ofText t) some

theorem match?_eq (a : Pattern) (t : Text) : a.match? t = (a.ends (.ofText t)).head? := by
  rw [match?, find_eq]
  cases a.ends (.ofText t) <;> rfl

-- Whether the pattern matches somewhere in a text.
def occursIn (a : Pattern) (t : Text) : Bool :=
  go 0 [] t
where
  go (index : Nat) (before : Text) : Text → Bool
    | []     => (a.find ⟨index, before, [], []⟩ some).isSome
    | c :: t =>
      (a.find ⟨index, before, c :: t, []⟩ some).isSome || go (index + 1) (c :: before) t

-- Building blocks.

def inOrder : List Pattern → Pattern
  | []     => empty
  | [a]    => a
  | a :: l => seq a (inOrder l)

def oneOf : List Pattern → Pattern
  | []     => empty
  | [a]    => a
  | a :: l => alt a (oneOf l)

def option (a : Pattern) : Pattern :=
  alt a empty

def text (t : String) : Pattern :=
  inOrder (t.toList.map fun c => char (· == c))

-- A character that is a given small letter up to case. Two letters outside ASCII fold to `s` and
-- `k`.
def foldsTo (c d : Char) : Bool :=
  asciiLower d == c || (c == 's' && d == '\u017F') || (c == 'k' && d == '\u212A')

-- The text in any case; it is given in small letters.
def anyCase (t : String) : Pattern :=
  inOrder (t.toList.map fun c => char (foldsTo c))

def texts (l : List String) : Pattern :=
  oneOf (l.map text)

def anyCases (l : List String) : Pattern :=
  oneOf (l.map anyCase)

def blanks : Pattern := run 0 isBlank

def someBlanks : Pattern := run 1 isBlank

def word : Pattern := run 1 isWord

end Pattern

end Text

end LogOrigin
