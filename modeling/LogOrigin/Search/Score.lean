import LogOrigin.FilePath
import LogOrigin.Source.Comment
import LogOrigin.Source.Declaration
import LogOrigin.Source.Statement
import LogOrigin.Text.Lowercase

-- How well a source line fits a search text.

namespace LogOrigin

open Text

-- Scores and weights are numbers of 32 bits, and their sums wrap around.
abbrev Points := UInt32

instance : Coe Nat Points := ⟨UInt32.ofNat⟩

instance : Coe Points Nat := ⟨UInt32.toNat⟩

structure Weights where
  base          : Points
  exact         : Points
  declaration   : Points
  logging       : Points
  importPenalty : Points
  deriving DecidableEq

-- A line with its score. The index is the place of its file in the list of scanned files.
structure Candidate where
  fileIndex : Nat
  file      : FilePath
  line      : Nat
  score     : Points
  deriving DecidableEq

namespace Score

-- A difference that does not fall below zero.
def less (score penalty : Points) : Points :=
  if penalty ≤ score then score - penalty else 0

-- The score of a line, without its comment, that contains the needle.
def ofContaining (code needle : Text) (w : Weights) : Points :=
  let score := w.base +
    (if trim code = needle then w.exact else 0) +
    (if Declaration.isDeclaration code then w.declaration else 0) +
    (if Statement.isLogging code then w.logging else 0)
  if Statement.isImport code then less score w.importPenalty else score

-- The score of a line for a search text. Lines that do not contain the text outside their comment
-- score zero, as all lines do for a blank text.
def ofLine (line search : Text) (w : Weights) : Points :=
  let needle := trim search
  let code := Comment.strip line
  if needle.isEmpty || !contains (lowercase code) (lowercase needle) then 0
  else ofContaining code needle w

-- The score for a needle whose small letters are at hand.
def ofLowered (line needle lowered : Text) (w : Weights) : Points :=
  let code := Comment.strip line
  if contains (lowercase code) lowered then ofContaining code needle w else 0

-- The order of candidates: higher scores first, then by file and line.
def before (a b : Candidate) : Bool :=
  b.score < a.score || (a.score == b.score &&
    (a.fileIndex < b.fileIndex || (a.fileIndex == b.fileIndex && a.line ≤ b.line)))

def rank (l : List Candidate) : List Candidate :=
  l.mergeSort before

end Score

end LogOrigin
