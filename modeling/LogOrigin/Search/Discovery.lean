import LogOrigin.Search.Ignore
import LogOrigin.Settings

-- The source files of a repository.

namespace LogOrigin

open Text

structure Discovery where
  files     : List FilePath
  -- Whether there were more files than the settings allow.
  truncated : Bool
  deriving DecidableEq

namespace Discovery

-- A file that is not ignored, with its size in bytes.
structure Found where
  path : FilePath
  size : Nat
  deriving DecidableEq

section

variable {κ : Type} (policy : IgnorePolicy κ)

def isPruned (skipDirs : List Text) (k : κ) (names : List Text) (name : Text) (e : Entry) : Bool :=
  policy.ignores k (names ++ [name]) e.isDir || e.isDir && skipDirs.elem name

mutual

-- The files in an entry, in the order of their names, without those that are ignored, that are
-- inside skipped directories, or to which no path leads.
def walk (skipDirs : List Text) (k : κ) (names : List Text) (path : FilePath) : Entry → List Found
  | .file b      => if path.isTooLong then [] else [⟨path, b.size⟩]
  | .dir entries => walkAll skipDirs (policy.enter k names path) names path entries

def walkAll (skipDirs : List Text) (k : κ) (names : List Text) (path : FilePath) :
    List (Text × Entry) → List Found
  | []             => []
  | (name, e) :: l =>
    (if isPruned policy skipDirs k names name e then []
      else walk skipDirs k (names ++ [name]) (path.join ⟨name⟩) e) ++
    walkAll skipDirs k names path l

end

end

-- An extension as it is compared.
def extensionKey (t : Text) : Text :=
  (t.dropWhile (· == '.')).map asciiLower

def isSource (s : SearchSettings) (f : Found) : Bool :=
  f.path.extension?.any (fun e => (s.extensions.map extensionKey).elem (e.map asciiLower)) &&
  f.size ≤ s.maxFileSize

-- Takes up the source files among those that are found, until there is one more than the settings
-- allow.
def collect (s : SearchSettings) : List Found → Discovery → Discovery
  | [], d     => d
  | f :: l, d =>
    if !isSource s f then
      collect s l d
    else if s.maxFiles ≤ d.files.length then
      { d with truncated := true }
    else
      collect s l { d with files := d.files ++ [f.path] }

-- The first source files of a directory, as many as the settings allow, by what counts around it.
def ofPolicy {κ : Type} (policy : IgnorePolicy κ) (k : κ) (fs : Files) (root : FilePath)
    (s : SearchSettings) : Except Failure Discovery :=
  match fs.find root with
  | .ok (.dir entries) =>
    .ok <| collect s (walk policy s.skipDirs k (fs.names root) root (.dir entries)) ⟨[], false⟩
  | _ => .error (.file (.missingRoot root))

-- Here the ignore files of the directories say what is ignored.
def ofRoot (fs : Files) (root : FilePath) (s : SearchSettings) : Except Failure Discovery :=
  ofPolicy (IgnoreLayer.policy fs) (IgnoreLayer.above fs (fs.names root)) fs root s

end Discovery

end LogOrigin
