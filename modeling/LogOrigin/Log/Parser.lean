import LogOrigin.Failure
import LogOrigin.Log.Grammar
import LogOrigin.Text.Escape

-- Parsers of log text: a list of grammars, of which the first one that accepts a line decides.

namespace LogOrigin

open Text

abbrev Parser := List Grammar

namespace Parser

def standard : Parser := [.json, .spanChain, .simple]

-- The line without escape sequences and without the line break at its end.
def clean (raw : Text) : Text :=
  dropEndWhile (fun c => c == '\r' || c == '\n') (stripEscapes raw)

def ofEntries (raw : Text) (e : Entries) : Record where
  timestamp := e.timestamp
  level     := e.level
  message   := e.message
  target    := e.target
  spans     := e.spans
  raw       := raw
  location  := e.location
  callers   := none
  analysis  := none

-- The record of a line that no grammar accepts.
def fallback (raw : Text) (line : Text) : Record where
  timestamp := (Timestamp.find? line).getD []
  level     := .info
  message   := trim line
  target    := none
  spans     := .single Record.rootName []
  raw       := raw
  location  := none
  callers   := none
  analysis  := none

-- The record of a line, unless the line is blank.
def parseLine (p : Parser) (raw : Text) : Option Record :=
  let line := clean raw
  if isAllBlank line then
    none
  else
    match p.findSome? (·.parse line) with
    | some e => some (ofEntries raw e)
    | none   => some (fallback raw line)

-- The records of a text. A text without a line that is not blank has none and fails.
def parseBatch (p : Parser) (t : Text) : Except Failure (List Record) :=
  match (lines t).filterMap p.parseLine with
  | []      => .error .batchEmpty
  | r :: rs => .ok (r :: rs)

def parseFile (p : Parser) (fs : Files) (path : FilePath) : Except Failure (List Record) :=
  match fs.read path with
  | .ok t    => p.parseBatch t
  | .error e => .error (.file e)

end Parser

end LogOrigin
