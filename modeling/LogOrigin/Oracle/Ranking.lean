import LogOrigin.FilePath
import LogOrigin.Oracle.Analysis

-- Requests to rank call sites, and the replies to them.

namespace LogOrigin

open Text

-- A call site that is offered for ranking.
structure CallCandidate where
  file     : FilePath
  line     : Nat
  function : Text
  snippet  : Text
  deriving DecidableEq

structure RankRequest where
  currentLine  : Text
  staticText   : Option Text
  contextLines : List Text
  candidates   : List CallCandidate
  deriving DecidableEq

structure RankedCall where
  file        : FilePath
  line        : Nat
  function    : Text
  confidence  : Binary64
  explanation : Text
  deriving DecidableEq

namespace Confidence

-- What stands in for a confidence that is missing or no number.
def fallback : Binary64 := .half

-- The nearest number between zero and one.
def clamp (x : Binary64) : Binary64 :=
  if x.isNaN then fallback
  else if x.valueKey < Binary64.zero.valueKey then .zero
  else if Binary64.one.valueKey < x.valueKey then .one
  else x

-- Numbers from zero, of either sign, to one.
def InUnit (x : Binary64) : Prop :=
  ¬ x.isNaN ∧ 0 ≤ x.valueKey ∧ x.valueKey ≤ Binary64.one.valueKey

theorem clamp_inUnit (x : Binary64) : InUnit (clamp x) := by
  unfold clamp
  split
  · exact ⟨by decide, by decide, by decide⟩
  · next hn =>
    split
    · exact ⟨by decide, by decide, by decide⟩
    · next h₀ =>
      split
      · exact ⟨by decide, by decide, by decide⟩
      · next h₁ =>
        have : Binary64.zero.valueKey = 0 := by decide
        exact ⟨hn, by omega, by omega⟩

end Confidence

namespace RankedCall

-- The first of two members that is there.
def member? (v : Json) (k l : String) : Option Json :=
  (v.get? k.toList).orElse fun _ => v.get? l.toList

def lineOf : Json → Option Nat
  | .number n => n.toNat?
  | .string t => Decimal.indexOfText? (trim t)
  | _         => none

def confidenceOf : Json → Option Binary64
  | .number n => some n.toBinary64
  | .string t => Binary64.ofText? (trim t)
  | _         => none

-- Members that are missing or of another kind get values of their own.
def ofJson (v : Json) : RankedCall where
  file        := ⟨((member? v "file" "file_path").map Json.plain).getD []⟩
  line        := ((member? v "line" "line_number").bind lineOf).getD 0
  function    := ((member? v "function" "function_name").map Json.plain).getD []
  confidence  :=
    (((v.get? "confidence".toList).bind confidenceOf).map Confidence.clamp).getD
      Confidence.fallback
  explanation := ((v.get? "explanation".toList).map Json.plain).getD []

-- The list that a document holds: itself, or one of its members.
def itemsOf : Json → List Json
  | .array l  => l
  | .object m =>
    match (KeyMap.get? "callers".toList m).orElse fun _ => KeyMap.get? "ranked".toList m with
    | some (.array l) => l
    | _               => []
  | _         => []

-- The entries of a reply. Items that are no objects do not count.
def ofReply (t : Text) : List RankedCall :=
  match Reply.document? t with
  | some v => ((itemsOf v).filter Json.isObject).map ofJson
  | none   => []

end RankedCall

end LogOrigin
