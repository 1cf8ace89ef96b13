import LogOrigin.Text.KeyMap
import LogOrigin.FilePath

-- A tree of files and directories, and the ways in which looking up a path can fail.

namespace LogOrigin

-- A file with its bytes, or a directory with its entries in the order of their names.
inductive Entry where
  | file (bytes : ByteArray)
  | dir (entries : List (Text × Entry))

inductive FileError where
  | notFound
  | notDirectory
  | isDirectory
  | nameTooLong
  | nulInPath
  | notText
  | missingRoot (root : FilePath)
  deriving DecidableEq

namespace FileError

def message : FileError → Text
  | notFound     => "No such file or directory (os error 2)".toList
  | notDirectory => "Not a directory (os error 20)".toList
  | isDirectory  => "Is a directory (os error 21)".toList
  | nameTooLong  => "File name too long (os error 36)".toList
  | nulInPath    => "file name contained an unexpected NUL byte".toList
  | notText      => "stream did not contain valid UTF-8".toList
  | missingRoot root =>
    "repository root is not a directory: ".toList ++ root.text

end FileError

-- All files, and the names on the way to the directory from which relative paths start.
structure Files where
  tree    : Entry
  current : List Text

namespace Entry

def empty : Entry := dir []

def isDir : Entry → Bool
  | dir _  => true
  | file _ => false

def maxNameBytes : Nat := 255

-- Follows segments from a directory; `above` are the directories above it, the nearest one first.
def follow (above : List Entry) (e : Entry) : List Text → Except FileError Entry
  | []     => .ok e
  | s :: l =>
    match e with
    | file _      => .error .notDirectory
    | dir entries =>
      if FilePath.isVoid s then
        follow above e l
      else if s = ['.', '.'] then
        match above with
        | []         => follow [] e l
        | d :: above => follow above d l
      else if maxNameBytes < Text.byteSize s then
        .error .nameTooLong
      else
        match KeyMap.get? s entries with
        | some d => follow (e :: above) d l
        | none   => .error .notFound

-- Changes the entry at the end of a way of names. Directories on the way are made as needed and
-- replace files.
def changeAt (f : Entry → Entry) : List Text → Entry → Entry
  | [], e          => f e
  | s :: l, dir m  => dir (KeyMap.modify s empty (changeAt f l) m)
  | s :: l, file _ => dir [(s, changeAt f l empty)]

-- The entry as a directory; a file is replaced by an empty one.
def asDir : Entry → Entry
  | dir m  => dir m
  | file _ => empty

def erase : List Text → Entry → Entry
  | [], e         => e
  | [s], dir m    => dir (KeyMap.erase s m)
  | s :: l, dir m =>
    match KeyMap.get? s m with
    | some d => dir (KeyMap.insert s (erase l d) m)
    | none   => dir m
  | _, file b     => file b

end Entry

namespace Files

def empty : Files := ⟨.empty, []⟩

-- Changes of the tree. The names lead from its root to the place of the change.

def write (fs : Files) (names : List Text) (bytes : ByteArray) : Files :=
  { fs with tree := fs.tree.changeAt (fun _ => .file bytes) names }

def makeDir (fs : Files) (names : List Text) : Files :=
  { fs with tree := fs.tree.changeAt .asDir names }

def delete (fs : Files) (names : List Text) : Files :=
  { fs with tree := fs.tree.erase names }

-- The entry that a path leads to.
def find (fs : Files) (p : FilePath) : Except FileError Entry :=
  if p.text.any (· == '\x00') then
    .error .nulInPath
  else if p.isTooLong then
    .error .nameTooLong
  else if p.text.isEmpty then
    .error .notFound
  else if p.isAbsolute then
    Entry.follow [] fs.tree p.segments
  else
    Entry.follow [] fs.tree (fs.current ++ p.segments)

-- The names that lead from the root of the tree to where a path leads.
def names (fs : Files) (p : FilePath) : List Text :=
  (if p.isAbsolute then p.segments else fs.current ++ p.segments).foldl step []
where
  step (l : List Text) (s : Text) : List Text :=
    if FilePath.isVoid s then l else if s = ['.', '.'] then l.dropLast else l ++ [s]

def isFile (fs : Files) (p : FilePath) : Bool :=
  match fs.find p with
  | .ok (.file _) => true
  | _             => false

def isDir (fs : Files) (p : FilePath) : Bool :=
  match fs.find p with
  | .ok (.dir _) => true
  | _            => false

def decode (b : ByteArray) : Except FileError Text :=
  match String.fromUTF8? b with
  | some s => .ok s.toList
  | none   => .error .notText

-- The text of a file.
def read (fs : Files) (p : FilePath) : Except FileError Text :=
  match fs.find p with
  | .ok (.file b) => decode b
  | .ok (.dir _)  => .error .isDirectory
  | .error e      => .error e

theorem isFile_of_read {fs : Files} {p : FilePath} {t : Text} (h : fs.read p = .ok t) :
    fs.isFile p := by
  simp only [read, isFile] at *
  split at h <;> simp_all

end Files

end LogOrigin
