import LogOrigin.Log.Timestamp
import LogOrigin.Oracle.Ranking
import LogOrigin.Text.Escape
import LogOrigin.Text.Lowercase

-- The lexical oracle. It tells literal text from values by their shape, and ranks call sites by the
-- terms that they share with the log.

namespace LogOrigin

open Text

namespace Lexical

-- A value inside a message. A named value has its name and an equals sign in front, which are
-- literal text.
structure Value where
  label : Option Text
  text  : Text
  deriving DecidableEq

def Value.lead (v : Value) : Text :=
  match v.label with
  | some k => k ++ ['=']
  | none   => []

def Value.length (v : Value) : Nat :=
  v.lead.length + v.text.length

abbrev Finder := Option Char → Text → Option Value

def unnamed (m : Matcher) : Finder :=
  fun b t => (m b t).map fun n => ⟨none, t.take n⟩

def isKeyChar (c : Char) : Bool :=
  isWord c || c == '.'

-- A text between two quotes of one kind, quotes included.
def takeQuoted (quote : Char) : Reader
  | c :: t =>
    if c = quote then
      match t.dropWhile (· != quote) with
      | d :: r => some (c :: t.takeWhile (· != quote) ++ [d], r)
      | []     => none
    else
      none
  | []     => none

def takeAnyQuoted (t : Text) : Option (Text × Text) :=
  (takeQuoted '"' t).orElse fun _ => takeQuoted '\'' t

def isPlainValue (c : Char) : Bool :=
  !(isBlank c || c == ',' || c == ';')

-- `key=value`.
def named : Finder := fun before t =>
  match t with
  | c :: r =>
    if isIdentStart c && isBoundary before (some c) then
      match r.dropWhile isKeyChar with
      | '=' :: v =>
        ((takeAnyQuoted v).orElse fun _ => takeRun isPlainValue v).map fun p =>
          ⟨some (c :: r.takeWhile isKeyChar), p.1⟩
      | _        => none
    else
      none
  | []     => none

-- Matches what a reader takes, as long as it stands apart from words.
def apart (r : Reader) : Matcher := fun before t =>
  match r t with
  | some (a, u) =>
    if isBoundary before t.head? && isBoundary a.getLast? u.head? then some a.length else none
  | none        => none

def uuidShape : List (Char → Bool) :=
  let hex := fun n => List.replicate n isHexDigit
  let dash := [fun c : Char => c == '-']
  hex 8 ++ dash ++ hex 4 ++ dash ++ hex 4 ++ dash ++ hex 4 ++ dash ++ hex 12

def takeHexNumber : Reader
  | '0' :: 'x' :: t => (takeRun isHexDigit t).map fun r => ('0' :: 'x' :: r.1, r.2)
  | _               => none

def minHexRun : Nat := 12

def takeHexRun (t : Text) : Option (Text × Text) :=
  (takeRun isHexDigit t).filter fun r => minHexRun ≤ r.1.length

-- A number, with its fraction unless a word goes on after it.
def number : Matcher := fun before t =>
  if isBoundary before t.head? then
    (takeRun isDigit t).bind (Clock.close (· == '.'))
  else
    none

-- The value at a place; the earlier kinds win.
def value? : Finder := fun b t =>
  (named b t).orElse fun _ =>
  (unnamed Timestamp.matcher b t).orElse fun _ =>
  (unnamed Clock.strictMatcher b t).orElse fun _ =>
  (unnamed (Reader.matcher takeAnyQuoted) b t).orElse fun _ =>
  (unnamed (apart (takeShape uuidShape)) b t).orElse fun _ =>
  (unnamed (apart takeHexNumber) b t).orElse fun _ =>
  (unnamed (apart takeHexRun) b t).orElse fun _ =>
  unnamed number b t

-- A message taken apart: literal runs with a value after each of them, and the last run.
structure Dissection where
  parts : List (Text × Value)
  last  : Text
  deriving DecidableEq

def Dissection.cons (c : Char) (d : Dissection) : Dissection :=
  match d.parts with
  | (r, v) :: l => { d with parts := (c :: r, v) :: l }
  | []          => { d with last := c :: d.last }

def dissect (t : Text) : Dissection :=
  go none 0 t
where
  go (before : Option Char) : Nat → Text → Dissection
    | _, []            => ⟨[], []⟩
    | skip + 1, c :: t => go (some c) skip t
    | 0, c :: t        =>
      match value? before (c :: t) with
      | some v =>
        let d := go (some c) (v.length - 1) t
        { d with parts := (v.lead, v) :: d.parts }
      | none   => (go (some c) 0 t).cons c

def Dissection.runs (d : Dissection) : List Text :=
  d.parts.map (·.1) ++ [d.last]

-- A value without the quotes around it.
def unquote (t : Text) : Text :=
  match t with
  | c :: r =>
    if (c = '"' || c = '\'') && r.getLast? = some c then r.dropLast else t
  | []     => t

-- Values without a name are numbered from zero.
def Dissection.values (d : Dissection) : KeyMap Text :=
  go 0 [] (d.parts.map (·.2))
where
  go (n : Nat) (m : KeyMap Text) : List Value → KeyMap Text
    | []     => m
    | v :: l =>
      match v.label with
      | some k => go n (KeyMap.insert k (unquote v.text) m) l
      | none   => go (n + 1) (KeyMap.insert ("value".toList ++ ofNat n) (unquote v.text) m) l

def isRunEdge (c : Char) : Bool :=
  ":,;=()[]".toList.contains c

-- A run without blanks and punctuation at its ends.
def trimRun (t : Text) : Text :=
  trim (dropEndWhile isRunEdge ((trim t).dropWhile isRunEdge))

def minRun : Nat := 3

-- The first of the longest texts.
def longest? : List Text → Option Text
  | []     => none
  | t :: l =>
    match longest? l with
    | none   => some t
    | some u => if t.length < u.length then some u else some t

def analyze (raw : Text) : Analysis :=
  let message := trim (stripEscapes raw)
  let d := dissect message
  {
    staticText := (longest? ((d.runs.map trimRun).filter (minRun ≤ ·.length))).getD message
    values     := d.values
  }

-- The least number of bytes of a term.
def minTerm : Nat := 3

-- The pieces of a text between the characters that are in no identifier.
def identifiers (t : Text) : List Text :=
  go [] t
where
  go (acc : Text) : Text → List Text
    | []     => [acc.reverse]
    | c :: t => if isIdent c then go (c :: acc) t else acc.reverse :: go [] t

-- The different terms of a text.
def terms (t : Text) : List Text :=
  (((identifiers t).filter (minTerm ≤ byteSize ·)).map lowercase).eraseDups

def vocabulary (r : RankRequest) : List Text :=
  terms r.currentLine ++ (r.staticText.elim [] terms) ++ r.contextLines.flatMap terms

-- The least confidence and the greatest addition to it, `0.3` and `0.6`.
def baseConfidence : Binary64 := Decimal.toBinary64 ⟨false, 3, -1⟩

def confidenceSpan : Binary64 := Decimal.toBinary64 ⟨false, 6, -1⟩

def fraction (shared own : Nat) : Binary64 :=
  if own = 0 then .zero else .ofFraction false shared own

def rankOne (vocabulary : List Text) (c : CallCandidate) : RankedCall :=
  let own := (terms c.snippet ++ terms c.function).eraseDups
  let shared := own.countP vocabulary.contains
  {
    file        := c.file
    line        := c.line
    function    := c.function
    confidence  := Confidence.clamp
      (baseConfidence.add (confidenceSpan.mul (fraction shared own.length)))
    explanation := "shares ".toList ++ ofNat shared ++ " of ".toList ++ ofNat own.length ++
      " terms with the log context".toList
  }

-- Candidates by confidence, equal ones in their order.
def rank (r : RankRequest) : List RankedCall :=
  (r.candidates.map (rankOne (vocabulary r))).mergeSort fun a b =>
    b.confidence.valueKey ≤ a.confidence.valueKey

end Lexical

end LogOrigin
