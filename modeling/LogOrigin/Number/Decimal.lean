import LogOrigin.Text.CharClass
import LogOrigin.Number.Binary64

-- Decimal numbers, their reading from text and the nearest double.

namespace LogOrigin

-- The number `coefficient * 10 ^ exponent`, with a sign that zero has too.
structure Decimal where
  negative    : Bool
  coefficient : Nat
  exponent    : Int
  deriving DecidableEq

namespace Decimal

def digitCount (n : Nat) : Nat :=
  (Nat.toDigits 10 n).length

def powerOfTen (n : Nat) : Nat :=
  Nat.pow 10 n

-- Beyond these bounds every number rounds to infinity or to zero.
def largeExponent : Int := 310

def smallPlace : Int := -330

def toBinary64 (d : Decimal) : Binary64 :=
  if d.coefficient = 0 then
    .ofMagnitude d.negative 0
  else if largeExponent < d.exponent then
    .ofMagnitude d.negative Binary64.infinityBits
  else if digitCount d.coefficient + d.exponent < smallPlace then
    .ofMagnitude d.negative 0
  else if 0 ≤ d.exponent then
    .ofFraction d.negative (d.coefficient * powerOfTen d.exponent.toNat) 1
  else
    .ofFraction d.negative d.coefficient (powerOfTen (-d.exponent).toNat)

def digitValue (c : Char) : Nat :=
  c.toNat - '0'.toNat

-- Reads digits onto a number that has been read so far.
def readDigits (n : Nat) : Text → Nat
  | []     => n
  | c :: t => readDigits (n * 10 + digitValue c) t

-- The text as a number of one or more ASCII digits.
def natOfText? (t : Text) : Option Nat :=
  if t.isEmpty || !t.all Text.isAsciiDigit then none else some (readDigits 0 t)

-- The largest number that an index or a line number can have.
def maxIndex : Nat := 0xFFFFFFFFFFFFFFFF

-- An index as text: digits, with a plus sign allowed in front.
def indexOfText? (t : Text) : Option Nat :=
  let digits := match t with
    | '+' :: r => r
    | r        => r
  (natOfText? digits).filter (· ≤ maxIndex)

-- The sign in front of a number and what follows it.
def splitSign : Text → Bool × Text
  | '+' :: t => (false, t)
  | '-' :: t => (true, t)
  | t        => (false, t)

-- The exponent part `e±digits`, which may be missing.
def exponentOfText? : Text → Option Int
  | []     => some 0
  | c :: t =>
    if c = 'e' || c = 'E' then
      let (negative, digits) := splitSign t
      (natOfText? digits).map fun n => if negative then -(n : Int) else n
    else
      none

-- A number with an optional sign, digits on at least one side of an optional point, and an
-- optional exponent.
def ofText? (t : Text) : Option Decimal :=
  let (negative, t) := splitSign t
  let whole := t.takeWhile Text.isAsciiDigit
  let t := t.dropWhile Text.isAsciiDigit
  let (fraction, t) := match t with
    | '.' :: r => (r.takeWhile Text.isAsciiDigit, r.dropWhile Text.isAsciiDigit)
    | r        => ([], r)
  if whole.isEmpty && fraction.isEmpty then
    none
  else
    (exponentOfText? t).map fun e =>
      ⟨negative, readDigits (readDigits 0 whole) fraction, e - fraction.length⟩

end Decimal

-- The double that a text denotes: a decimal number, an infinity or the value that is no number.
def Binary64.ofText? (t : Text) : Option Binary64 :=
  match Decimal.ofText? t with
  | some d => some d.toBinary64
  | none   =>
    let (negative, name) := Decimal.splitSign t
    let name := name.map Text.asciiLower
    if name = "inf".toList || name = "infinity".toList then
      some (if negative then Binary64.infinity.negate else .infinity)
    else if name = "nan".toList then
      some .nan
    else
      none

end LogOrigin
