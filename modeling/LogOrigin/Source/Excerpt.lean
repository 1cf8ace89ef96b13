import LogOrigin.Failure

-- Excerpts of a text: the lines near one line.

namespace LogOrigin

open Text

namespace Excerpt

-- The lines up to a distance from a line, with their numbers.
def around (t : Text) (line radius : Nat) : List (Nat × Text) :=
  let first := line - radius
  (((lines t).zipIdx.drop first).take (line + radius + 1 - first)).map fun l => (l.2, l.1)

def snippet (t : Text) (line radius : Nat) : Text :=
  joinWith ['\n'] ((around t line radius).map (·.2))

def ofFile (fs : Files) (file : FilePath) (line radius : Nat) :
    Except Failure (List (Nat × Text)) :=
  match fs.read file with
  | .ok t    => .ok (around t line radius)
  | .error e => .error (.file e)

end Excerpt

end LogOrigin
