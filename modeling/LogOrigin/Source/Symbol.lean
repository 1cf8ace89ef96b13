import LogOrigin.Source.Block
import LogOrigin.Source.Declaration

-- Functions and methods in a text: the one around a line, and the name under a column.

namespace LogOrigin

open Text

-- A declared name with the place where it stands and the last line of its block. Columns count bytes.
structure Symbol where
  name        : Text
  startLine   : Nat
  startColumn : Nat
  endLine     : Nat
  deriving DecidableEq

namespace Symbol

-- The bytes before the first occurrence of a text.
def offset? (t : Text) : Text → Option Nat
  | []     => if t.isEmpty then some 0 else none
  | c :: l => if startsWith (c :: l) t then some 0 else (offset? t l).map (c.utf8Size + ·)

def ofLine (lines : List Text) (start : Nat) (name : Text) : Symbol where
  name        := name
  startLine   := start
  startColumn := ((lines[start]?).bind (offset? name)).getD 0
  endLine     := Block.lastLine start (lines.drop start)

-- The nearest declaration among the lines above a line, the nearest one first, whose block is still
-- open. The block of a header without an opening brace is open for lines with a larger indent.
def above (indent : Nat) : Nat → List Text → Option (Nat × Text)
  | _, []           => none
  | pending, l :: r =>
    let code := Comment.strip l
    let found :=
      if pending = 0 && !Block.closes code then
        (Declaration.name? code).filter fun _ => Block.opens code || Block.indent code < indent
      else
        none
    match found with
    | some name => some (r.length, name)
    | none      => above indent (Block.unopened pending code) r

-- The function around a line: the one declared on it, or else the nearest open one above.
def enclosing? (t : Text) (line : Nat) : Option Symbol :=
  let lines := Text.lines t
  match lines[line]? with
  | none        => none
  | some target =>
    match Declaration.name? target with
    | some name => some (ofLine lines line name)
    | none      =>
      (above (Block.indent target) 0 (lines.take line).reverse).map fun (start, name) =>
        ofLine lines start name

-- Cuts a line at a column, unless a character lies across it. Columns beyond the line mean its end.
def cut? : Nat → Text → Option (Text × Text)
  | 0, t          => some ([], t)
  | _ + 1, []     => some ([], [])
  | n + 1, c :: t =>
    if c.utf8Size ≤ n + 1 then
      (cut? (n + 1 - c.utf8Size) t).map fun p => (c :: p.1, p.2)
    else
      none

-- The identifier that holds or touches a column.
def identifierAt? (line : Text) (column : Nat) : Option Text :=
  match cut? column line with
  | none               => none
  | some (left, right) =>
    let name := (left.reverse.takeWhile isIdent).reverse ++ right.takeWhile isIdent
    if name.isEmpty then none else some name

end Symbol

end LogOrigin
