import LogOrigin.Log.Timestamp
import LogOrigin.Log.Level

-- The start of a plain log line: a timestamp and a level, either of which may stand in brackets.

namespace LogOrigin

open Text

structure Header where
  timestamp : Text
  level     : Level
  rest      : Text
  deriving DecidableEq

namespace Header

-- Drops one or more blanks.
def dropBlanks? : Text → Option Text
  | []     => none
  | c :: t => if isBlank c then some (trimStart t) else none

-- Reads the header of a line. What follows it must stand on one line.
def read (line : Text) : Option Header := do
  let (timestamp, t) ← Timestamp.take (dropOptional '[' (trimStart line))
  let t ← dropBlanks? (dropOptional ']' t)
  let (level, t) ← Level.take (dropOptional '[' t)
  let rest ← dropBlanks? (dropOptional ':' (dropOptional ']' t))
  if rest.all (· != '\n') then some ⟨timestamp, level, rest⟩ else none

end Header

end LogOrigin
