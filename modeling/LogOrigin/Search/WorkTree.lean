import LogOrigin.Files.Lines
import LogOrigin.Text.Scan

-- Where a repository keeps what is common to its work trees. In the main work tree that is the
-- directory `.git`; in a linked one `.git` is a file that leads there by way of the state of that
-- tree.

namespace LogOrigin

open Text

namespace WorkTree

-- The directory of a linked work tree's state, by the first line of its `.git` file.
def state? (line : Text) : Option FilePath :=
  (dropLead? "gitdir: ".toList line).map FilePath.mk

-- The file of a state that names the common directory.
def commonPath (state : FilePath) : FilePath :=
  state.join ⟨"commondir".toList⟩

-- The common directory. A name that starts with a dot is relative to the state.
def common? (fs : Files) (state : FilePath) : Option FilePath :=
  (fs.firstLine? (commonPath state)).map fun line =>
    if line.head? = some '.' then state.join ⟨line⟩ else ⟨line⟩

def stateOf? : Entry → Option FilePath
  | .file b => (Files.readableLines b).head?.bind state?
  | .dir _  => none

def excludePath (common : FilePath) : FilePath :=
  common.join ⟨"info/exclude".toList⟩

-- The file of rules that a repository keeps to itself; `dir` is the top directory of a work tree.
def exclude? (fs : Files) (dir : FilePath) : Option FilePath :=
  let git := dir.join ⟨".git".toList⟩
  match fs.find git with
  | .ok (.file b) => (stateOf? (.file b)).bind (common? fs) |>.map excludePath
  | _             => some (excludePath git)

mutual

-- The states of all linked work trees inside an entry.
def states : Entry → List FilePath
  | .file _ => []
  | .dir m  => statesIn m

def statesIn : List (Text × Entry) → List FilePath
  | []             => []
  | (name, e) :: m =>
    (if name = ".git".toList then (stateOf? e).toList else []) ++ states e ++ statesIn m

end

end WorkTree

end LogOrigin
