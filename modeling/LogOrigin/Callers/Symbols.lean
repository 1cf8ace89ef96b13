import LogOrigin.Source.Symbol
import LogOrigin.Source.Usage

-- Where callers look up functions and their uses: an index of symbols, or the text of the sources.

namespace LogOrigin

open Text

-- An answer to the question for the uses of a symbol. It may be unknown, which says something else
-- than that there are none.
inductive References where
  | unknown
  | known (usages : List Usage)
  -- The lines of the source files that use a name.
  | named (name : Text)
  deriving DecidableEq

structure SymbolIndex where
  enclosing  : Files → FilePath → Nat → Option Symbol
  -- The uses of the symbol at a line and column.
  references : Files → FilePath → Nat → Nat → References

namespace SymbolIndex

-- Knows nothing.
def absent : SymbolIndex where
  enclosing _ _ _    := none
  references _ _ _ _ := .unknown

-- The function around a line of a file.
def enclosingInFile? (fs : Files) (file : FilePath) (line : Nat) : Option Symbol :=
  match fs.read file with
  | .ok t    => Symbol.enclosing? t line
  | .error _ => none

-- The name at a place of a file.
def nameInFile? (fs : Files) (file : FilePath) (line column : Nat) : Option Text :=
  match fs.read file with
  | .ok t    => (lines t)[line]?.bind fun l => Symbol.identifierAt? l column
  | .error _ => none

-- Reads the texts of the files.
def text : SymbolIndex where
  enclosing                    := enclosingInFile?
  references fs file line column :=
    match nameInFile? fs file line column with
    | some name => .named name
    | none      => .unknown

end SymbolIndex

end LogOrigin
