import LogOrigin.Files.Basic
import LogOrigin.Source.Comment
import LogOrigin.Source.Statement

-- Lines that use a name.

namespace LogOrigin

open Text

structure Usage where
  file : FilePath
  line : Nat
  deriving DecidableEq

namespace Usage

-- More usages than this are not reported.
def limit : Nat := 200

-- Whether a name occurs in code with word boundaries on both sides; `before` is the character in
-- front of the code.
def occurs (name : Text) (before : Option Char) (code : Text) : Bool :=
  (match dropLead? name code with
    | some r => isBoundary before code.head? && isBoundary (name.getLast?.or before) r.head?
    | none   => false) ||
  match code with
  | []     => false
  | c :: r => occurs name (some c) r

-- Comments and imports do not use a name.
def isUsage (name line : Text) : Bool :=
  occurs name none (Comment.strip line) && !Statement.isImport line

-- The lines of a text that use a name.
def linesOf (name t : Text) : List Nat :=
  ((lines t).zipIdx.filter fun l => isUsage name l.1).map (·.2)

-- A file that cannot be read as text uses nothing.
def ofFile (fs : Files) (name : Text) (file : FilePath) : List Usage :=
  match fs.read file with
  | .ok t    => (linesOf name t).map fun line => ⟨file, line⟩
  | .error _ => []

def ofFiles (fs : Files) (name : Text) (files : List FilePath) : List Usage :=
  (files.flatMap (ofFile fs name)).take limit

end Usage

end LogOrigin
