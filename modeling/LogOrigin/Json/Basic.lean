import LogOrigin.Text.KeyMap
import LogOrigin.Number.Binary64

-- JSON values.

namespace LogOrigin

-- Integers that fit 64 bits are kept as such; every other number is a double.
inductive JsonNumber where
  | natural (n : Nat)
  | negative (n : Nat)
  | double (x : Binary64)
  deriving DecidableEq

inductive Json where
  | null
  | bool (b : Bool)
  | number (n : JsonNumber)
  | string (t : Text)
  | array (items : List Json)
  | object (members : List (Text × Json))

namespace JsonNumber

def toNat? : JsonNumber → Option Nat
  | natural n => some n
  | _         => none

def toBinary64 : JsonNumber → Binary64
  | natural n  => .ofNat n
  | negative n => (Binary64.ofNat n).negate
  | double x   => x

end JsonNumber

namespace Json

-- A member of an object; other values have none.
def get? (v : Json) (k : Text) : Option Json :=
  match v with
  | object m => KeyMap.get? k m
  | _        => none

def isObject : Json → Bool
  | object _ => true
  | _        => false

end Json

end LogOrigin
