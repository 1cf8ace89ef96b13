-- Double precision numbers as their bits. Arithmetic is exact on fractions of natural numbers,
-- followed by one rounding to the nearest number, ties to the even one.

namespace LogOrigin

structure Binary64 where
  bits : UInt64
  deriving DecidableEq, Inhabited

namespace Binary64

def signBit : Nat := 0x8000000000000000

def infinityBits : Nat := 0x7FF0000000000000

def isNegative (x : Binary64) : Bool :=
  signBit ≤ x.bits.toNat

-- The bits without the sign. They order the numbers of one sign.
def magnitude (x : Binary64) : Nat :=
  x.bits.toNat % signBit

def isNaN (x : Binary64) : Bool :=
  infinityBits < x.magnitude

def isFinite (x : Binary64) : Bool :=
  x.magnitude < infinityBits

def ofMagnitude (negative : Bool) (m : Nat) : Binary64 :=
  ⟨UInt64.ofNat (if negative then signBit + m else m)⟩

def zero : Binary64 := ⟨0⟩

def one : Binary64 := ⟨0x3FF0000000000000⟩

def half : Binary64 := ⟨0x3FE0000000000000⟩

def infinity : Binary64 := ⟨0x7FF0000000000000⟩

def nan : Binary64 := ⟨0x7FF8000000000000⟩

-- Flips the sign.
def negate (x : Binary64) : Binary64 :=
  ofMagnitude (!x.isNegative) x.magnitude

-- The first bit of a significand, which is not written. It is the unit of the exponent, too.
def hiddenBit : Nat := 0x10000000000000

-- The significand `m` and the biased exponent `b` of a finite number, whose magnitude is
-- `m * 2 ^ b / 2 ^ 1074`.
def significand (x : Binary64) : Nat :=
  if x.magnitude / hiddenBit = 0 then x.magnitude else x.magnitude % hiddenBit + hiddenBit

def biasedExponent (x : Binary64) : Nat :=
  x.magnitude / hiddenBit - 1

-- The magnitude of a finite number over the denominator `2 ^ 1074`.
def numerator (x : Binary64) : Nat :=
  x.significand <<< x.biasedExponent

def denominator : Nat := 1 <<< 1074

-- The quotient rounded to an integer, a half to the even neighbour.
def roundDiv (num den : Nat) : Nat :=
  let q := num / den
  let r := num % den
  if 2 * r < den then q
  else if den < 2 * r then q + 1
  else if q % 2 = 0 then q else q + 1

-- The number nearest to `num / den`.
def ofFraction (negative : Bool) (num den : Nat) : Binary64 :=
  let scaled := num <<< 1074
  let q := scaled / den
  -- The unit in the last place is `2 ^ b` in units of `2 ^ -1074`.
  let b := q.log2 - 52
  let m := b * hiddenBit + roundDiv scaled (den <<< b)
  ofMagnitude negative (min m infinityBits)

def ofNat (n : Nat) : Binary64 :=
  ofFraction false n 1

-- The operations on finite numbers that are not negative.

def mul (x y : Binary64) : Binary64 :=
  ofFraction false (x.numerator * y.numerator) (denominator * denominator)

def div (x y : Binary64) : Binary64 :=
  ofFraction false x.numerator y.numerator

def add (x y : Binary64) : Binary64 :=
  ofFraction false (x.numerator + y.numerator) denominator

-- The place of a number in the total order of all bit patterns, in which -0 stands before 0.
def totalKey (x : Binary64) : Int :=
  if x.isNegative then -(x.magnitude : Int) - 1 else x.magnitude

-- The place of a number in the order of values, in which -0 equals 0.
def valueKey (x : Binary64) : Int :=
  if x.isNegative then -(x.magnitude : Int) else x.magnitude

end Binary64

end LogOrigin
