import LogOrigin.Log.Record
import LogOrigin.Search.Score

-- The place in the source that a record comes from, and how it was found.

namespace LogOrigin

-- The stages of a resolution, in their order.
inductive Stage where
  | cache
  | hint
  | staticString
  | variant
  | cleanedMessage
  | filename
  deriving DecidableEq

namespace Stage

def name : Stage → Text
  | cache          => "cache".toList
  | hint           => "hint".toList
  | staticString   => "static_string".toList
  | variant        => "variant".toList
  | cleanedMessage => "cleaned_message".toList
  | filename       => "filename".toList

def title : Stage → Text
  | cache          => "Cache".toList
  | hint           => "Hint".toList
  | staticString   => "StaticString".toList
  | variant        => "Variant".toList
  | cleanedMessage => "CleanedMessage".toList
  | filename       => "Filename".toList

end Stage

-- Only the stages that scan lines give a score.
structure Origin where
  file  : FilePath
  line  : Nat
  score : Points
  stage : Stage
  deriving DecidableEq

namespace Origin

def location (o : Origin) : Location :=
  ⟨o.file, o.line⟩

-- A file whose name fits says nothing about the line.
def isUncertain (o : Origin) : Bool :=
  o.stage = .filename

def ofLocation (stage : Stage) (l : Location) : Origin :=
  ⟨l.file, l.line, 0, stage⟩

def ofCandidate (stage : Stage) (c : Candidate) : Origin :=
  ⟨c.file, c.line, c.score, stage⟩

end Origin

inductive Resolution where
  | found (o : Origin)
  | notFound
  | cancelled
  deriving DecidableEq

end LogOrigin
