import LogOrigin.Files.Basic
import LogOrigin.Log.Record
import LogOrigin.Number.Decimal
import LogOrigin.Text.Scan

-- Source locations that are written in log text, and the local files that foreign paths may mean.

namespace LogOrigin

open Text

namespace Hint

-- What a text says about a location: the path and the line number as they are written.
structure Mention where
  path : Text
  line : Text

-- The characters of a mention and the mention.
abbrev Finder := Option Char → Text → Option (Nat × Mention)

-- The mentions in a text from left to right, without overlaps.
def findAll (f : Finder) (t : Text) : List Mention :=
  go none 0 t
where
  go (before : Option Char) : Nat → Text → List Mention
    | _, []            => []
    | skip + 1, c :: t => go (some c) skip t
    | 0, c :: t        =>
      match f before (c :: t) with
      | some (n + 1, m) => m :: go (some c) n t
      | _               => go (some c) 0 t

-- A stack frame such as `File "/app/orders.py", line 42`.
def frame : Finder := fun _ t => do
  let t₁ ← dropLead? "File \"".toList t
  let (path, t₂) ← takeRun (· != '"') t₁
  let t₃ ← dropLead? "\", line ".toList t₂
  let (line, t₄) ← takeRun isDigit t₃
  return (t.length - t₄.length, ⟨path, line⟩)

def isPathChar (c : Char) : Bool :=
  isWord c || c == '.' || c == '/' || c == '\\' || c == '-'

def maxExtension : Nat := 6

-- Whether a path ends with a word character or hyphen, a point and a short extension.
def hasExtension (path : Text) : Bool :=
  let r := path.reverse
  let extension := r.takeWhile isAsciiAlnum
  extension.length ≤ maxExtension && extension.getLast?.any isAsciiLetter &&
  match r.dropWhile isAsciiAlnum with
  | '.' :: c :: _ => isWord c || c == '-'
  | _             => false

-- A path with an extension, a colon and a line number.
def pathLine? (t : Text) : Option (Text × Text × Text) := do
  let (path, r) ← takeRun isPathChar t
  if hasExtension path then
    match r with
    | ':' :: r =>
      let (line, r) ← takeRun isDigit r
      return (path, line, r)
    | _        => none
  else
    none

-- A drive letter with its colon.
def drive? : Text → Option (Text × Text)
  | c :: ':' :: t => if isAsciiLetter c then some ([c, ':'], t) else none
  | _             => none

-- A location such as `src/main.rs:7`, where a drive may stand before the path.
def fileLine : Finder := fun _ t =>
  let withDrive := do
    let (drive, t₁) ← drive? t
    let (path, line, t₂) ← pathLine? t₁
    return (t.length - t₂.length, Mention.mk (drive ++ path) line)
  withDrive.orElse fun _ =>
    (pathLine? t).map fun (path, line, t₁) => (t.length - t₁.length, ⟨path, line⟩)

-- The location of a mention. Written lines count from one.
def locationOf? (m : Mention) : Option Location :=
  (Decimal.indexOfText? m.line).map fun n => ⟨⟨m.path⟩, n - 1⟩

def addNew (l : List Location) (x : Location) : List Location :=
  if l.contains x then l else l ++ [x]

-- The different locations that a text mentions, those of stack frames first.
def locations (t : Text) : List Location :=
  ((findAll frame t ++ findAll fileLine t).filterMap locationOf?).foldl addNew []

-- The candidate without the slash or the leading dot at its start.
def relative (candidate : FilePath) : FilePath :=
  let p := (candidate.stripBase? .root).getD candidate
  (p.stripBase? .current).getD p

-- Drops every path that is the same as the one before it.
def dropRepeats : List FilePath → List FilePath
  | []          => []
  | p :: l      => p :: go p l
where
  go (last : FilePath) : List FilePath → List FilePath
    | []     => []
    | p :: l => if p.same last then go last l else p :: go p l

-- The local files that a path may mean: itself if it is absolute, the file inside the root with that
-- path, and the file directly in the root with that name.
def candidates (root candidate : FilePath) : List FilePath :=
  dropRepeats <|
    (if candidate.isAbsolute then [candidate] else []) ++
    [root.join (relative candidate)] ++
    match candidate.fileName? with
    | some name => [root.join ⟨name⟩]
    | none      => []

-- The first of these that is a file.
def translate? (fs : Files) (root candidate : FilePath) : Option FilePath :=
  (candidates root candidate).find? fs.isFile

theorem isFile_of_translate? {fs : Files} {root candidate p : FilePath}
    (h : translate? fs root candidate = some p) : fs.isFile p :=
  List.find?_some h

end Hint

end LogOrigin
