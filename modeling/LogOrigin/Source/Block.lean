import LogOrigin.Source.Comment

-- Blocks of code: braces outside comments, or lines that are indented deeper than their header.

namespace LogOrigin

open Text

namespace Block

-- The bytes of the blanks in front of a line.
def indent (line : Text) : Nat :=
  byteSize (line.takeWhile isBlank)

def opens (code : Text) : Bool :=
  List.elem '\x7b' code

def closes (code : Text) : Bool :=
  List.elem '\x7d' code

-- Opening braces less closing ones.
def net (code : Text) : Int :=
  code.count '\x7b' - code.count '\x7d'

-- The closing braces that have not met their opening ones, when code is read from its end.
def unopened (pending : Nat) (code : Text) : Nat :=
  code.foldr
    (fun c n => if c = '\x7d' then n + 1 else if c = '\x7b' then n - 1 else n)
    pending

-- The last line before the next one that is not indented deeper than the header. Blank lines
-- count only between deeper ones.
def lastDeeper (header : Nat) (last i : Nat) : List Text → Nat
  | []     => last
  | l :: r =>
    if isAllBlank l then lastDeeper header last (i + 1) r
    else if indent l ≤ header then last
    else lastDeeper header i (i + 1) r

def endsWithColon (line : Text) : Bool :=
  (trimEnd line).getLast? = some ':'

-- The last line of the block that starts with the first of these lines, which has the number
-- `start`: the line of its closing brace, or the last deeper one after a line that ends with a colon.
-- A block that does not end is its first line alone.
def lastLine (start : Nat) (lines : List Text) : Nat :=
  go (indent (lines.headD [])) start 0 false lines
where
  go (header i : Nat) (depth : Int) (opened : Bool) : List Text → Nat
    | []     => start
    | l :: r =>
      let code := Comment.strip l
      let depth := depth + net code
      let opened := opened || opens code
      if opened && depth ≤ 0 then i
      else if !opened && endsWithColon l then lastDeeper header i (i + 1) r
      else go header (i + 1) depth opened r

end Block

end LogOrigin
