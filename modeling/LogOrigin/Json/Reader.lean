import LogOrigin.Json.Basic
import LogOrigin.Number.Decimal

-- The reading of JSON documents. Of a repeated key the last value is kept.

namespace LogOrigin

namespace JsonNumber

def maxNatural : Nat := 0xFFFFFFFFFFFFFFFF

def maxNegative : Nat := 0x8000000000000000

def maxExponent : Nat := 0x7FFFFFFF

-- Reads digits onto a significand of 64 bits; says how many of them found room.
def takeDigits (s : Nat) : Text → Nat × Nat
  | []     => (s, 0)
  | c :: t =>
    let n := s * 10 + Decimal.digitValue c
    if maxNatural < n then (s, 0) else let (n, k) := takeDigits n t; (n, k + 1)

-- Multiplies by a power of ten with one rounding per factor of at most `10 ^ 308`.
def scaleUp (x : Binary64) (e : Nat) : Option Binary64 :=
  if e ≤ 308 then
    let y := Binary64.mul x (.ofNat (Decimal.powerOfTen e))
    if y.isFinite then some y else none
  else if x = .zero then some x else none

def scaleDown (x : Binary64) (e : Nat) : Binary64 :=
  if e ≤ 308 then x.div (.ofNat (Decimal.powerOfTen e))
  else if x = .zero then x
  else scaleDown (x.div (.ofNat (Decimal.powerOfTen 308))) (e - 308)
termination_by e

def scale (minus : Bool) (s : Nat) (e : Int) : Option JsonNumber :=
  let x := Binary64.ofNat s
  let y := if 0 ≤ e then scaleUp x e.toNat else some (scaleDown x (-e).toNat)
  y.map fun y => double (.ofMagnitude minus y.magnitude)

-- The exponent part, which may be missing. `none` means that it is ill formed.
def readExponent : Text → Option (Option (Bool × Nat) × Text)
  | []     => some (none, [])
  | c :: t =>
    if c = 'e' || c = 'E' then
      let (minus, t) := Decimal.splitSign t
      let digits := t.takeWhile Text.isAsciiDigit
      if digits.isEmpty then none
      else some (some (minus, Decimal.readDigits 0 digits), t.dropWhile Text.isAsciiDigit)
    else
      some (none, c :: t)

def applyExponent (minus : Bool) (s : Nat) (e : Int) : Option (Bool × Nat) → Option JsonNumber
  | none        => scale minus s e
  | some (d, n) =>
    if maxExponent < n then
      if s ≠ 0 && !d then none else some (double (.ofMagnitude minus 0))
    else
      scale minus s (if d then e - n else e + n)

def ofInteger (minus : Bool) (n : Nat) : JsonNumber :=
  if !minus then .natural n
  else if n = 0 || maxNegative < n then .double (.ofMagnitude true (Binary64.ofNat n).magnitude)
  else .negative n

-- The number of a whole part and an exponent part. Digits that find no room in the significand count
-- as zeros.
def ofWhole (minus : Bool) (whole : Text) (x : Option (Bool × Nat)) : Option JsonNumber :=
  let (s, k) := takeDigits 0 whole
  if x.isNone && k = whole.length then some (ofInteger minus s)
  else applyExponent minus s (whole.length - k : Nat) x

def ofFraction (minus : Bool) (whole fraction : Text) (x : Option (Bool × Nat)) :
    Option JsonNumber :=
  let (s, k) := takeDigits 0 whole
  let (s, l) := takeDigits s fraction
  applyExponent minus s ((whole.length - k : Nat) - l) x

-- What follows the whole part of a number. Digits must follow a point.
def readFraction (minus : Bool) (whole : Text) : Text → Option (JsonNumber × Text)
  | '.' :: t =>
    let fraction := t.takeWhile Text.isAsciiDigit
    if fraction.isEmpty then
      none
    else do
      let (x, t) ← readExponent (t.dropWhile Text.isAsciiDigit)
      return (← ofFraction minus whole fraction x, t)
  | t        => do
    let (x, t) ← readExponent t
    return (← ofWhole minus whole x, t)

-- A number without its sign. A whole part has no leading zero.
def readUnsigned (minus : Bool) (t : Text) : Option (JsonNumber × Text) :=
  let whole := if t.head? = some '0' then ['0'] else t.takeWhile Text.isAsciiDigit
  let t := t.drop whole.length
  if whole.isEmpty || (whole = ['0'] && t.head?.any Text.isAsciiDigit) then
    none
  else
    readFraction minus whole t

-- Reads a number off the front of a text.
def read : Text → Option (JsonNumber × Text)
  | '-' :: t => readUnsigned true t
  | t        => readUnsigned false t

end JsonNumber

namespace Json

def isSpace (c : Char) : Bool :=
  c == ' ' || c == '\n' || c == '\t' || c == '\r'

def skipSpace (t : Text) : Text :=
  t.dropWhile isSpace

def hexValue? (c : Char) : Option Nat :=
  if Text.isAsciiDigit c then some (c.toNat - '0'.toNat)
  else if 'a' ≤ c && c ≤ 'f' then some (c.toNat - 'a'.toNat + 10)
  else if 'A' ≤ c && c ≤ 'F' then some (c.toNat - 'A'.toNat + 10)
  else none

-- Four hexadecimal digits.
def readHex : Text → Option (Nat × Text)
  | a :: b :: c :: d :: t => do
    let a ← hexValue? a
    let b ← hexValue? b
    let c ← hexValue? c
    let d ← hexValue? d
    return (((a * 16 + b) * 16 + c) * 16 + d, t)
  | _                     => none

-- What follows `\u`. A high surrogate needs a low one after it, and a low one cannot stand alone.
def readUnicode (t : Text) : Option (Char × Text) := do
  let (n, t) ← readHex t
  if 0xD800 ≤ n && n < 0xDC00 then
    match t with
    | '\\' :: 'u' :: t =>
      let (m, t) ← readHex t
      if 0xDC00 ≤ m && m < 0xE000 then
        return (Char.ofNat (0x10000 + (n - 0xD800) * 0x400 + (m - 0xDC00)), t)
      else
        none
    | _                => none
  else if 0xDC00 ≤ n && n < 0xE000 then
    none
  else
    return (Char.ofNat n, t)

-- What follows a backslash.
def readEscape : Text → Option (Char × Text)
  | '"' :: t  => some ('"', t)
  | '\\' :: t => some ('\\', t)
  | '/' :: t  => some ('/', t)
  | 'b' :: t  => some (Char.ofNat 8, t)
  | 'f' :: t  => some (Char.ofNat 12, t)
  | 'n' :: t  => some ('\n', t)
  | 'r' :: t  => some ('\r', t)
  | 't' :: t  => some ('\t', t)
  | 'u' :: t  => readUnicode t
  | _         => none

-- Reads a string after its opening quote. `acc` holds its characters, the last one first.
def readString (fuel : Nat) (acc : Text) (t : Text) : Option (Text × Text) :=
  match fuel, t with
  | 0, _ | _, []          => none
  | _ + 1, '"' :: t       => some (acc.reverse, t)
  | fuel + 1, '\\' :: t   =>
    match readEscape t with
    | some (c, t) => readString fuel (c :: acc) t
    | none        => none
  | fuel + 1, c :: t      =>
    if c.toNat < 32 then none else readString fuel (c :: acc) t

-- Arrays and objects may be nested this deep.
def maxDepth : Nat := 127

mutual

def readValue (fuel depth : Nat) (t : Text) : Option (Json × Text) :=
  match fuel, skipSpace t with
  | 0, _ | _, []                              => none
  | fuel + 1, '"' :: t                        => do
    let (s, t) ← readString (fuel + 1) [] t
    return (string s, t)
  | fuel + 1, '[' :: t                        =>
    match depth with
    | 0         => none
    | depth + 1 =>
      match skipSpace t with
      | ']' :: t => some (array [], t)
      | t        => do
        let (vs, t) ← readItems fuel depth [] t
        return (array vs, t)
  | fuel + 1, '{' :: t                        =>
    match depth with
    | 0         => none
    | depth + 1 =>
      match skipSpace t with
      | '}' :: t => some (object [], t)
      | t        => do
        let (m, t) ← readMembers fuel depth [] t
        return (object m, t)
  | _ + 1, 'n' :: 'u' :: 'l' :: 'l' :: t        => some (null, t)
  | _ + 1, 't' :: 'r' :: 'u' :: 'e' :: t        => some (bool true, t)
  | _ + 1, 'f' :: 'a' :: 'l' :: 's' :: 'e' :: t => some (bool false, t)
  | _ + 1, t                                    => do
    let (n, t) ← JsonNumber.read t
    return (number n, t)

-- Items up to the closing bracket. `acc` holds the items read, the last one first.
def readItems (fuel depth : Nat) (acc : List Json) (t : Text) : Option (List Json × Text) :=
  match fuel with
  | 0        => none
  | fuel + 1 => do
    let (v, t) ← readValue fuel depth t
    match skipSpace t with
    | ',' :: t => readItems fuel depth (v :: acc) t
    | ']' :: t => some ((v :: acc).reverse, t)
    | _        => none

def readMembers (fuel depth : Nat) (acc : List (Text × Json)) (t : Text) :
    Option (List (Text × Json) × Text) :=
  match fuel, skipSpace t with
  | fuel + 1, '"' :: t => do
    let (k, t) ← readString (fuel + 1) [] t
    match skipSpace t with
    | ':' :: t => do
      let (v, t) ← readValue fuel depth t
      let acc := KeyMap.insert k v acc
      match skipSpace t with
      | ',' :: t => readMembers fuel depth acc t
      | '}' :: t => some (acc, t)
      | _        => none
    | _        => none
  | _, _               => none

end

-- The value of a document: one value with blanks around it.
def read? (t : Text) : Option Json :=
  match readValue (2 * t.length + 2) maxDepth t with
  | some (v, t) => if (skipSpace t).isEmpty then some v else none
  | none        => none

end Json

end LogOrigin
