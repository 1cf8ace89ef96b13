import LogOrigin.Text.CaseContext
import LogOrigin.Text.LowerRun

-- Unicode lowercase. It differs from a map over characters in two places: capital I with a dot
-- becomes two characters, and a capital sigma depends on whether it ends a word.

namespace LogOrigin

namespace Text

def lowerChar (c : Char) : Char :=
  match lowerRuns.findSome? (·.map? c.toNat) with
  | some n => Char.ofNat n
  | none   => c

-- Whether the first character that case rules do not ignore is a cased one.
def meetsCased (t : Text) : Bool :=
  match t.dropWhile caseIgnorableRanges.has with
  | []     => false
  | c :: _ => casedRanges.has c

-- The final form of a sigma stands after a cased letter and before no cased letter.
def lowerSigma (before after : Text) : Char :=
  if meetsCased before && !meetsCased after then 'ς' else 'σ'

def lowercase (t : Text) : Text :=
  go [] t
where
  -- `before` is what has been read, last character first.
  go (before : Text) : Text → Text
    | []     => []
    | c :: t =>
      if c = 'Σ' then
        lowerSigma before t :: go (c :: before) t
      else if c = 'İ' then
        'i' :: '\u0307' :: go (c :: before) t
      else
        lowerChar c :: go (c :: before) t

theorem lowercase_nil : lowercase [] = [] :=
  rfl

end Text

end LogOrigin
