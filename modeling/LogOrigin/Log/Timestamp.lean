import LogOrigin.Text.Blank
import LogOrigin.Text.Scan

-- Timestamps and clock times inside log text.

namespace LogOrigin

open Text

namespace Timestamp

def isDateMark (c : Char) : Bool :=
  c == 'T' || c == ' '

def isFractionMark (c : Char) : Bool :=
  c == '.' || c == ','

def isSign (c : Char) : Bool :=
  c == '+' || c == '-'

-- Year, month and day, and the time of the day to the second.
def shape : List (Char → Bool) := [
  isDigit, isDigit, isDigit, isDigit, (· == '-'), isDigit, isDigit, (· == '-'), isDigit, isDigit,
  isDateMark,
  isDigit, isDigit, (· == ':'), isDigit, isDigit, (· == ':'), isDigit, isDigit]

-- A mark and the digits of a fraction.
def takeFraction (isMark : Char → Bool) : Reader
  | c :: t => if isMark c then (takeRun isDigit t).map fun r => (c :: r.1, r.2) else none
  | []     => none

def takeZone (t : Text) : Option (Text × Text) :=
  match takeShape [(· == 'Z')] t with
  | some r => some r
  | none   =>
    match takeShape [isSign, isDigit, isDigit, (· == ':'), isDigit, isDigit] t with
    | some r => some r
    | none   => takeShape [isSign, isDigit, isDigit, isDigit, isDigit] t

-- A date and time of the form `2025-04-20T03:16:50`, with a fraction and a zone if they follow.
def take (t : Text) : Option (Text × Text) :=
  (takeShape shape t).map fun r => takeThen (takeThen r (takeFraction isFractionMark)) takeZone

def matcher : Matcher :=
  Reader.matcher take

-- The first timestamp inside a text.
def find? (t : Text) : Option Text :=
  findFirst? matcher t

end Timestamp

namespace Clock

def isColon (c : Char) : Bool :=
  c == ':'

-- The length of a time with its fraction. The fraction is left out if a word goes on after it,
-- and without a fraction no word may go on.
def close (fractionMark : Char → Bool) (r : Text × Text) : Option Nat :=
  match Timestamp.takeFraction fractionMark r.2 with
  | some (f, t) =>
    if isBoundary f.getLast? t.head? then some (r.1.length + f.length) else some r.1.length
  | none        => if isBoundary r.1.getLast? r.2.head? then some r.1.length else none

-- A clock time such as `10:04:05`, the hour in `shape`, that stands apart from words.
def matcherOf (shape : List (Char → Bool)) (fractionMark : Char → Bool) : Matcher :=
  fun before t =>
    if isBoundary before t.head? then
      (takeShape (shape ++ [isColon, isDigit, isDigit, isColon, isDigit, isDigit]) t).bind
        (close fractionMark)
    else
      none

-- The hour has one or two digits.
def matcher : Matcher :=
  (matcherOf [isDigit, isDigit] Timestamp.isFractionMark).orElse
    (matcherOf [isDigit] Timestamp.isFractionMark)

-- The hour has two digits and the fraction comes after a point.
def strictMatcher : Matcher :=
  matcherOf [isDigit, isDigit] (· == '.')

end Clock

end LogOrigin
