import LogOrigin.Text.Alphabetic
import LogOrigin.Text.Numeral
import LogOrigin.Text.Joiner
import LogOrigin.Text.Recent

-- Letters, digits and word characters, by their Unicode properties. ASCII is decided first because
-- almost all text is ASCII; the tables agree with it.

namespace LogOrigin

namespace Text

def isAsciiUpper (c : Char) : Bool :=
  'A' ≤ c && c ≤ 'Z'

def isAsciiLower (c : Char) : Bool :=
  'a' ≤ c && c ≤ 'z'

def isAsciiLetter (c : Char) : Bool :=
  isAsciiUpper c || isAsciiLower c

def isAsciiDigit (c : Char) : Bool :=
  '0' ≤ c && c ≤ '9'

def isAsciiAlnum (c : Char) : Bool :=
  isAsciiLetter c || isAsciiDigit c

def isHexDigit (c : Char) : Bool :=
  isAsciiDigit c || ('a' ≤ c && c ≤ 'f') || ('A' ≤ c && c ≤ 'F')

-- A decimal digit of any script that patterns know.
def isDigit (c : Char) : Bool :=
  if c.toNat < 128 then isAsciiDigit c else digitRanges.has c && !recentRanges.has c

-- A letter or number of any script.
def isAlnum (c : Char) : Bool :=
  if c.toNat < 128 then
    isAsciiAlnum c
  else
    alphabeticRanges.has c || digitRanges.has c || otherNumberRanges.has c

-- A character that the words of a pattern are made of.
def isWord (c : Char) : Bool :=
  if c.toNat < 128 then
    isAsciiAlnum c || c == '_'
  else
    (alphabeticRanges.has c || digitRanges.has c || joinerRanges.has c) && !recentRanges.has c

-- A character that identifiers are made of.
def isIdent (c : Char) : Bool :=
  isAlnum c || c == '_'

-- An ASCII letter or underscore, with which an identifier starts.
def isIdentStart (c : Char) : Bool :=
  isAsciiLetter c || c == '_'

-- Whether one of two neighbours is a word character and the other is not; the ends of the text
-- count as no word character.
def isBoundary (before after : Option Char) : Bool :=
  before.any isWord != after.any isWord

theorem isWord_of_isDigit {c : Char} (h : isDigit c) : isWord c := by
  unfold isDigit at h
  unfold isWord
  split at h
  · simp_all [isAsciiAlnum]
  · simp_all

theorem isWord_of_isAsciiAlnum {c : Char} (h : isAsciiAlnum c) : isWord c := by
  have hc : c.toNat < 128 := by
    simp only [isAsciiAlnum, isAsciiLetter, isAsciiUpper, isAsciiLower, isAsciiDigit,
      Bool.or_eq_true, Bool.and_eq_true, decide_eq_true_eq, Char.le_def, UInt32.le_iff_toNat_le] at h
    have : c.toNat = c.val.toNat := rfl
    rcases h with (h | h) | h <;>
      · have := h.2
        simp at this
        omega
  simp [isWord, hc, h]

def asciiUpper (c : Char) : Char :=
  if isAsciiLower c then Char.ofNat (c.toNat - 32) else c

def asciiLower (c : Char) : Char :=
  if isAsciiUpper c then Char.ofNat (c.toNat + 32) else c

end Text

end LogOrigin
