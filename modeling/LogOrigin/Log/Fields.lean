import LogOrigin.Text.Blank
import LogOrigin.Log.Span

-- Field lists of spans. Values may hold quoted strings and brackets of any kind, so a field list is
-- read together with its nesting.

namespace LogOrigin

open Text

namespace Fields

-- Where the reading stands: outside quotes, inside, or inside behind a backslash.
inductive Quotation where
  | outside
  | inside
  | escaped
  deriving DecidableEq

namespace Quotation

-- The next character of a quoted string.
def step (c : Char) : Quotation → Quotation
  | escaped => inside
  | _       => if c = '\\' then escaped else if c = '"' then outside else inside

end Quotation

def isOpening (c : Char) : Bool :=
  c == '[' || c == '{' || c == '('

def isClosing (c : Char) : Bool :=
  c == ']' || c == '}' || c == ')'

-- How deep in brackets the reading is, and whether it is inside quotes.
structure Nesting where
  depth     : Nat
  quotation : Quotation
  deriving DecidableEq

namespace Nesting

def top : Nesting := ⟨0, .outside⟩

-- A closing bracket at depth zero changes nothing.
def step (n : Nesting) (c : Char) : Nesting :=
  if n.quotation = .outside then
    if c = '"' then ⟨n.depth, .inside⟩
    else if isOpening c then ⟨n.depth + 1, .outside⟩
    else if isClosing c then ⟨n.depth - 1, .outside⟩
    else n
  else
    ⟨n.depth, n.quotation.step c⟩

-- Whether the brackets opened so far are closed by this character.
def isClosedBy (n : Nesting) (c : Char) : Bool :=
  n.quotation = .outside && n.depth == 0 && isClosing c

-- Whether a blank separates here.
def separates (n : Nesting) (c : Char) : Bool :=
  n.quotation = .outside && n.depth == 0 && isBlank c

end Nesting

-- Splits what follows an opening brace at the bracket that closes it, which must be a brace.
def splitBody? (n : Nesting) : Text → Option (Text × Text)
  | []     => none
  | c :: t =>
    if n.isClosedBy c then
      if c = '}' then some ([], t) else none
    else
      (splitBody? (n.step c) t).map fun r => (c :: r.1, r.2)

theorem splitBody?_append {n : Nesting} {t body rest : Text}
    (h : splitBody? n t = some (body, rest)) : t = body ++ '}' :: rest := by
  induction t generalizing n body rest with
  | nil         => simp [splitBody?] at h
  | cons c t hi =>
    simp only [splitBody?] at h
    split at h
    · split at h <;> simp_all
    · obtain ⟨⟨b, r⟩, hb, he⟩ := Option.map_eq_some_iff.1 h
      simp only [Prod.mk.injEq] at he
      rw [← he.1, ← he.2, hi hb, List.cons_append]

-- The parts of a field list between the blanks outside quotes and brackets.
def tokens (t : Text) : List Text :=
  go .top [] t
where
  -- `acc` is the token that is being read, its last character first.
  go (n : Nesting) (acc : Text) : Text → List Text
    | []     => if acc.isEmpty then [] else [acc.reverse]
    | c :: t =>
      if n.separates c then
        if acc.isEmpty then go n [] t else acc.reverse :: go n [] t
      else
        go (n.step c) (c :: acc) t

-- A value without the quotes around it.
def unquote (t : Text) : Text :=
  match t with
  | '"' :: r => if r.getLast? = some '"' then r.dropLast else t
  | _        => t

-- A key and a value are divided by the first equals sign; without one the value is empty.
def ofToken (t : Text) : Text × Text :=
  match splitOnce? '=' t with
  | some (k, v) => (k, unquote v)
  | none        => (t, [])

def ofText (t : Text) : Fields :=
  (tokens t).map ofToken

end Fields

end LogOrigin
