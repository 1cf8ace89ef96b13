import LogOrigin.Callers.Node
import LogOrigin.Log.Level
import LogOrigin.Log.Span
import LogOrigin.Oracle.Analysis

-- Log records: what a line says, and what has been found out about it since.

namespace LogOrigin

-- A place in a source file. Lines are counted from zero.
structure Location where
  file : FilePath
  line : Nat
  deriving DecidableEq

structure Record where
  timestamp : Text
  level     : Level
  message   : Text
  target    : Option Text
  spans     : SpanChain
  raw       : Text
  location  : Option Location
  callers   : Option CallerNode
  analysis  : Option Analysis

namespace Record

-- The name of the span that stands in for missing ones.
def rootName : Text := "root".toList

-- Records are grouped by their spans, or by their target if they have no spans of their own.
def groupKey (r : Record) : Text :=
  if !r.spans.inner.isEmpty || !r.spans.outer.fields.isEmpty then
    r.spans.path
  else
    r.target.getD r.spans.outer.name

end Record

end LogOrigin
