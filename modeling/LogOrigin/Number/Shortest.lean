import LogOrigin.Number.Decimal

-- The shortest decimal that reads back as a given double, and the two written forms of doubles:
-- the shortest one and the one with a fixed number of places.

namespace LogOrigin

namespace Binary64

-- The numbers that round to a double, as bounds over a common denominator. The bounds themselves
-- belong to it if the significand is even.
structure Rounding where
  low    : Nat
  value  : Nat
  high   : Nat
  den    : Nat
  closed : Bool

-- Above a power of two the gap is twice the gap below.
def rounding (x : Binary64) : Rounding :=
  let m := x.significand
  let unit := 1 <<< x.biasedExponent
  let below := if m = hiddenBit && x.biasedExponent ≠ 0 then 1 else 2
  ⟨(4 * m - below) * unit, 4 * m * unit, (4 * m + 2) * unit, 4 * denominator, m % 2 = 0⟩

-- Whether `n * 10 ^ p`, given as a fraction, rounds to the double.
def Rounding.has (r : Rounding) (num den : Nat) : Bool :=
  let n := num * r.den
  if r.closed then
    r.low * den ≤ n && n ≤ r.high * den
  else
    r.low * den < n && n < r.high * den

-- The power of ten of the first digit of a positive fraction.
def leadingPlace (num den : Nat) : Int :=
  if den ≤ num then
    (Decimal.digitCount (num / den) : Int) - 1
  else
    -(Decimal.digitCount ((den - 1) / num) : Int)

-- The two sides of multiplying by a power of ten.
def tenUp (p : Int) : Nat := Decimal.powerOfTen p.toNat

def tenDown (p : Int) : Nat := Decimal.powerOfTen (-p).toNat

-- The nearest of the neighbours of the value among the multiples of `10 ^ p` that round to it.
def Rounding.pick? (r : Rounding) (p : Int) : Option Nat :=
  let num := r.value * tenDown p
  let den := r.den * tenUp p
  let a := num / den
  let fits := fun n => r.has (n * tenUp p) (tenDown p)
  match fits a, fits (a + 1) with
  | false, false => none
  | true, false  => some a
  | false, true  => some (a + 1)
  | true, true   => some (roundDiv num den)

-- Tries ever finer grids; seventeen digits always suffice.
def Rounding.search (r : Rounding) (place : Int) : Nat → Nat × Int
  | 0        => (0, 0)
  | fuel + 1 =>
    match r.pick? place with
    | some n => (n, place)
    | none   => r.search (place - 1) fuel

-- The shortest decimal of a positive finite double.
def shortest (x : Binary64) : Nat × Int :=
  let r := x.rounding
  let (n, p) := r.search (leadingPlace r.value r.den) 17
  dropZeros n p 20
where
  dropZeros (n : Nat) (p : Int) : Nat → Nat × Int
    | 0        => (n, p)
    | fuel + 1 => if n ≠ 0 && n % 10 = 0 then dropZeros (n / 10) (p + 1) fuel else (n, p)

-- The exponents up to which a number is written without one.
structure PlainRange where
  least    : Int
  greatest : Int

-- A number is written plainly if its point stands at most 16 places after its first digit and at
-- most 5 places before it.
def plainRange : PlainRange := ⟨-4, 16⟩

def sign (x : Binary64) : Text :=
  if x.isNegative then ['-'] else []

-- The shortest written form. Whole numbers keep a zero after the point.
def render (x : Binary64) : Text :=
  if x.isNaN then
    "NaN".toList
  else if !x.isFinite then
    x.sign ++ "inf".toList
  else if x.magnitude = 0 then
    x.sign ++ "0.0".toList
  else
    let (n, p) := x.shortest
    let digits := Text.ofNat n
    -- The place of the point, counted from the first digit.
    let point := (digits.length : Int) + p
    x.sign ++
      if 0 ≤ p && point ≤ plainRange.greatest then
        digits ++ List.replicate p.toNat '0' ++ ".0".toList
      else if 0 < point && point ≤ plainRange.greatest then
        digits.take point.toNat ++ '.' :: digits.drop point.toNat
      else if plainRange.least ≤ point && point ≤ 0 then
        "0.".toList ++ List.replicate (-point).toNat '0' ++ digits
      else
        scientific digits (point - 1)
where
  scientific (digits : Text) (e : Int) : Text :=
    let exponent :=
      'e' :: (if e < 0 then '-' :: Text.ofNat (-e).toNat else '+' :: Text.ofNat e.toNat)
    match digits with
    | [d]    => d :: exponent
    | d :: r => d :: '.' :: r ++ exponent
    | []     => exponent

-- The written form with a given number of places, a half rounded to the even neighbour.
def renderFixed (places : Nat) (x : Binary64) : Text :=
  let scaled := roundDiv (x.numerator * Decimal.powerOfTen places) denominator
  let digits := Text.ofNat scaled
  let digits := List.replicate (places + 1 - digits.length) '0' ++ digits
  let whole := digits.length - places
  x.sign ++ digits.take whole ++ (if places = 0 then [] else '.' :: digits.drop whole)

end Binary64

end LogOrigin
