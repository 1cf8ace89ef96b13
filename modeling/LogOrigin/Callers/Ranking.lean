import LogOrigin.Callers.Node
import LogOrigin.Oracle.Ranking

-- Call sites in the order that an oracle gives them.

namespace LogOrigin

namespace Ranking

-- Whether two paths may mean the same file, of which one may be relative to a directory of the other.
def sameFile (a b : FilePath) : Bool :=
  a.same b || a.endsWith b || b.endsWith a

def agreesInPlace (r : RankedCall) (c : CallCandidate) : Bool :=
  c.line == r.line && !r.file.text.isEmpty && sameFile c.file r.file

def agreesInName (r : RankedCall) (c : CallCandidate) : Bool :=
  !r.function.isEmpty && c.function == r.function

-- The first element that passes a test, and the others.
def extract? {α : Type} (p : α → Bool) : List α → Option (α × List α)
  | []     => none
  | a :: l => if p a then some (a, l) else (extract? p l).map fun r => (r.1, a :: r.2)

-- The candidate that an entry means: the first at its place, or else the first with its name.
def claim? (r : RankedCall) (l : List CallCandidate) :
    Option (CallCandidate × List CallCandidate) :=
  (extract? (agreesInPlace r) l).or (extract? (agreesInName r) l)

def infoOf (c : CallCandidate) (confidence : Binary64) (explanation : Text) : CallerInfo :=
  ⟨c.file, c.line, c.snippet, c.function, confidence, explanation⟩

def nodeOf (c : CallCandidate) (confidence : Binary64) (explanation : Text) : CallerNode :=
  .ofInfo (infoOf c confidence explanation)

-- The candidates that the entries claim one after the other, and those that are left.
def assign : List RankedCall → List CallCandidate → List CallerInfo × List CallCandidate
  | [], l      => ([], l)
  | r :: rs, l =>
    match claim? r l with
    | none        => assign rs l
    | some (c, l) =>
      let (claimed, rest) := assign rs l
      (infoOf c r.confidence r.explanation :: claimed, rest)

def notRanked : Text := "not ranked by oracle".toList

-- Claimed candidates by confidence, equal ones in the order of their entries, and then the others.
def apply (candidates : List CallCandidate) (ranked : List RankedCall) : List CallerNode :=
  let (claimed, rest) := assign ranked candidates
  let sorted := claimed.mergeSort fun a b => b.confidence.totalKey ≤ a.confidence.totalKey
  sorted.map .ofInfo ++ rest.map fun c => nodeOf c .zero notRanked

end Ranking

end LogOrigin
