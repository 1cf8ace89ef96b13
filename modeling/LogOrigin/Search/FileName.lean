import LogOrigin.Search.Glob
import LogOrigin.Search.Origin
import LogOrigin.Text.CharClass
import LogOrigin.Text.Lowercase

-- Files whose names fit the target of a record.

namespace LogOrigin

open Text

namespace FileName

-- The small letters and digits of a name, with single underscores in place of all else.
def normalize (name : Text) : Text :=
  let mapped := (lowercase name).map fun c => if isAlnum c then c else '_'
  joinWith ['_'] ((splitOn '_' mapped).filter (!·.isEmpty))

def isSeparator (c : Char) : Bool :=
  c == ':' || c == '/' || c == '\\' || c == '.'

-- What follows the last character of a class.
def lastPart (p : Char → Bool) (t : Text) : Text :=
  (t.reverse.takeWhile (!p ·)).reverse

-- What names the origin of a record: its target, or its outermost span if that has a name of its own.
def source? (r : Record) : Option Text :=
  r.target.or (if r.spans.outer.name = Record.rootName then none else some r.spans.outer.name)

-- Adds a stem that is long enough and new.
def addStem (least : Nat) (l : List Text) (stem : Text) : List Text :=
  if max least 1 ≤ stem.length && !l.elem stem then l ++ [stem] else l

-- The stems that a file name may have: the whole name, its last segment and its last word.
def stemsOf (least : Nat) (source : Text) : List Text :=
  let full := normalize source
  [full, normalize (lastPart isSeparator source), lastPart (· == '_') full].foldl (addStem least) []

def stems (least : Nat) (r : Record) : List Text :=
  match source? r with
  | some s => stemsOf least s
  | none   => []

-- A file with a stem as its name, in any directory.
def namedPattern (stem : Text) : Text :=
  "**/".toList ++ stem ++ ".*".toList

-- A file whose name has a stem in it.
def mentionPattern (stem : Text) : Text :=
  "**/*".toList ++ stem ++ "*".toList

-- Whether a glob fits the path of a file below the root of its repository.
def fits (root : FilePath) (g : Glob) (file : FilePath) : Bool :=
  (file.stripBase? root).any fun p => g.test p.text

-- The first file that fits the first glob that any file fits.
def firstFit? (root : FilePath) (files : List FilePath) (globs : List Glob) : Option FilePath :=
  globs.findSome? fun g => files.find? (fits root g)

-- The first file with one of the stems, or else the first that mentions one. Earlier stems count
-- more than earlier files.
def best? (root : FilePath) (stems : List Text) (files : List FilePath) : Option FilePath :=
  let named := stems.filterMap fun s => Glob.ofText? true (namedPattern s)
  let mentions := stems.filterMap fun s => Glob.ofText? true (mentionPattern s)
  [named, mentions].findSome? (firstFit? root files)

end FileName

end LogOrigin
