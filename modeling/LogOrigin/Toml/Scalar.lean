import LogOrigin.Number.Decimal
import LogOrigin.Text.Scan
import LogOrigin.Toml.Basic

-- The written forms of TOML numbers, truth values, dates and times.

namespace LogOrigin

open Text

namespace Toml

-- Takes out the underscores, each of which has to stand between two characters of a class.
def unspaced? (p : Char → Bool) : Text → Option Text
  | []            => some []
  | '_' :: _      => none
  | c :: '_' :: t =>
    if p c && t.head?.any p then (unspaced? p t).map (c :: ·) else none
  | c :: t        => (unspaced? p t).map (c :: ·)

def isOctal (c : Char) : Bool :=
  '0' ≤ c && c ≤ '7'

def isBinary (c : Char) : Bool :=
  c == '0' || c == '1'

def hexValue (c : Char) : Nat :=
  if isAsciiDigit c then c.toNat - '0'.toNat else (asciiLower c).toNat - 'a'.toNat + 10

def numberOf (radix : Nat) (digits : Text) : Int :=
  (digits.foldl (fun n c => n * radix + hexValue c) 0 : Nat)

-- The range of integers that can be read at all.
def inRange (n : Int) : Bool :=
  -0x80000000000000000000000000000000 ≤ n && n ≤ 0xFFFFFFFFFFFFFFFFFFFFFFFFFFFFFFFF

def integerOf (n : Int) : Toml :=
  if inRange n then integer n else unreadable

-- Digits of another base. Without any digit this is no number, but may be written.
def radix? (radix : Nat) (p : Char → Bool) (t : Text) : Option Toml :=
  match (unspaced? p t).filter (·.all p) with
  | some [] => some unreadable
  | some d  => some (integerOf (numberOf radix d))
  | none    => none

def isFloatMark (c : Char) : Bool :=
  c == '.' || c == 'e' || c == 'E'

-- A whole number after its sign. Behind its first underscore anything but the marks of a float may
-- be written, though only digits make it a number.
def whole? (negative : Bool) (t : Text) : Option Toml :=
  let rest := t.dropWhile isAsciiDigit
  if t.isEmpty || !(rest.isEmpty || rest.head? == some '_' && !rest.any isFloatMark) then
    none
  else
    (unspaced? isHexDigit t).map fun d =>
      if d.all isAsciiDigit then
        integerOf (if negative then -numberOf 10 d else numberOf 10 d)
      else
        unreadable

-- An exponent, which may be missing.
def isExponent : Text → Bool
  | []     => true
  | c :: t =>
    (c == 'e' || c == 'E') &&
      (takeRun isAsciiDigit (Decimal.splitSign t).2).any (·.2.isEmpty)

-- Digits before a point with digits after it, an exponent, or both.
def isFractional (t : Text) : Bool :=
  match takeRun isAsciiDigit t with
  | some (_, '.' :: t) => (takeRun isAsciiDigit t).any fun r => isExponent r.2
  | some (_, t)        => !t.isEmpty && isExponent t
  | none               => false

-- A float after its sign.
def float? (negative : Bool) (t : Text) : Option Toml := do
  let d ← (unspaced? isAsciiDigit t).filter isFractional
  let x ← Binary64.ofText? (if negative then '-' :: d else d)
  return if x.isFinite then float else unreadable

-- Zero stands first only where no other digit stands before the point.
def hasLeadingZero : Text → Bool
  | '0' :: c :: _ => isAsciiDigit c || c == '_'
  | _             => false

-- A number in decimal digits.
def decimal? (t : Text) : Option Toml :=
  let (negative, d) := Decimal.splitSign t
  if d = "inf".toList || d = "nan".toList then some float
  else if hasLeadingZero d then none
  else (whole? negative d).orElse fun _ => float? negative d

def number? : Text → Option Toml
  | '0' :: 'x' :: t => radix? 16 isHexDigit t
  | '0' :: 'o' :: t => radix? 8 isOctal t
  | '0' :: 'b' :: t => radix? 2 isBinary t
  | t               => decimal? t

def twoDigits : List (Char → Bool) := [isAsciiDigit, isAsciiDigit]

def numberAt (t : Text) (i n : Nat) : Nat :=
  Decimal.readDigits 0 ((t.drop i).take n)

def isLeap (year : Nat) : Bool :=
  year % 4 == 0 && (year % 100 != 0 || year % 400 == 0)

def daysIn (year month : Nat) : Nat :=
  if month = 2 then (if isLeap year then 29 else 28)
  else if [4, 6, 9, 11].contains month then 30
  else 31

-- What follows a valid date such as `2025-04-20`.
def date? (t : Text) : Option Text := do
  let shape := twoDigits ++ twoDigits ++ (· == '-') :: twoDigits ++ (· == '-') :: twoDigits
  let (d, t) ← takeShape shape t
  let month := numberAt d 5 2
  let day := numberAt d 8 2
  if 1 ≤ month && month ≤ 12 && 1 ≤ day && day ≤ daysIn (numberAt d 0 4) month then some t else none

-- What follows valid seconds with an optional fraction; the seconds may be missing.
def seconds? (t : Text) : Option Text :=
  match takeShape ((· == ':') :: twoDigits) t with
  | some (s, '.' :: t) =>
    if numberAt s 1 2 ≤ 60 then (takeRun isAsciiDigit t).map (·.2) else none
  | some (s, t)        => if numberAt s 1 2 ≤ 60 then some t else none
  | none               => some t

-- What follows a valid time such as `10:04:05.5`.
def time? (t : Text) : Option Text := do
  let (d, t) ← takeShape (twoDigits ++ (· == ':') :: twoDigits) t
  if numberAt d 0 2 < 24 && numberAt d 3 2 < 60 then seconds? t else none

def isOffset (t : Text) : Bool :=
  match t with
  | []    => true
  | ['Z'] => true
  | ['z'] => true
  | s :: t =>
    (s == '+' || s == '-') &&
    match takeShape (twoDigits ++ (· == ':') :: twoDigits) t with
    | some (d, []) => numberAt d 0 2 < 24 && numberAt d 3 2 < 60
    | _            => false

def isDateTime (t : Text) : Bool :=
  match date? t with
  | some []       => true
  | some (m :: t) => (m == 'T' || m == 't' || m == ' ') && (time? t).any isOffset
  | none          => time? t == some []

-- The value that a word outside quotes denotes.
def scalar? (t : Text) : Option Toml :=
  if t = "true".toList then some (boolean true)
  else if t = "false".toList then some (boolean false)
  else if isDateTime t then some datetime
  else number? t

end Toml

end LogOrigin
