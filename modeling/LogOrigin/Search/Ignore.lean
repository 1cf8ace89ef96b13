import LogOrigin.Search.Glob
import LogOrigin.Search.WorkTree
import LogOrigin.Text.Blank

-- Rules of ignore files, and what the rules of all directories on the way say about a path.

namespace LogOrigin

open Text

-- A rule ignores the paths that its glob matches, or takes them back.
structure IgnoreRule where
  glob     : Glob
  keeps    : Bool
  onlyDirs : Bool

namespace IgnoreRule

-- A pattern without the slash at its end, for which it matches only directories. A backslash before
-- that slash goes, too.
def splitSlash (t : Text) : Text × Bool :=
  match t.reverse with
  | '/' :: '\\' :: r => (r.reverse, true)
  | '/' :: r         => (r.reverse, true)
  | _                => (t, false)

-- A pattern without a slash matches in all directories below. One that ends with stars for a
-- directory matches what is inside.
def globText (anchored : Bool) (t : Text) : Text :=
  let t := if anchored || List.elem '/' t || t = "**".toList then t else "**/".toList ++ t
  if endsWith t "/**".toList then t ++ "/*".toList else t

def ofPattern? (keeps anchored : Bool) (t : Text) : Option IgnoreRule :=
  let (t, onlyDirs) := splitSlash t
  (Glob.ofText? false (globText anchored t)).map fun g => ⟨g, keeps, onlyDirs⟩

def ofAnchored? (keeps : Bool) : Text → Option IgnoreRule
  | '/' :: t => ofPattern? keeps true t
  | t        => ofPattern? keeps false t

-- The rule on a line, if there is one. Blanks at the end do not count unless a backslash stands
-- before the last one.
def ofLine? (line : Text) : Option IgnoreRule :=
  let line := if endsWith line "\\ ".toList then line else trimEnd line
  match line with
  | []               => none
  | '#' :: _         => none
  | '\\' :: '!' :: t => ofPattern? false false ('!' :: t)
  | '\\' :: '#' :: t => ofPattern? false false ('#' :: t)
  | '!' :: t         => ofAnchored? true t
  | t                => ofAnchored? false t

-- Byte order marks in front of the first line do not count.
def ofBytes (b : ByteArray) : List IgnoreRule :=
  match Files.readableLines b with
  | []     => []
  | l :: r => (l.dropWhile (· == '\uFEFF') :: r).filterMap ofLine?

def applies (r : IgnoreRule) (path : Text) (isDir : Bool) : Bool :=
  (isDir || !r.onlyDirs) && r.glob.test path

-- What the last rule that applies says: whether the path is ignored.
def verdict (rules : List IgnoreRule) (path : Text) (isDir : Bool) : Option Bool :=
  (rules.reverse.find? (·.applies path isDir)).map (!·.keeps)

end IgnoreRule

-- What is ignored in a tree: what counts inside a directory, by what counts around it, the names on
-- the way to it and its path, and whether the entry with certain names on its way is ignored.
structure IgnorePolicy (κ : Type) where
  enter   : κ → List Text → FilePath → κ
  ignores : κ → List Text → Bool → Bool

-- The rules that a directory has, by the files that they come from. The number of names on the way
-- to the directory is its depth.
structure IgnoreLayer where
  depth     : Nat
  tool      : List IgnoreRule
  versioned : List IgnoreRule
  excluded  : List IgnoreRule

namespace IgnoreLayer

-- The rules in the file that a path leads to.
def rulesAt (fs : Files) (p : FilePath) : List IgnoreRule :=
  match fs.find p with
  | .ok (.file b) => IgnoreRule.ofBytes b
  | _             => []

def ofDir (fs : Files) (depth : Nat) (dir : FilePath) : IgnoreLayer where
  depth     := depth
  tool      := rulesAt fs (dir.join ⟨".ignore".toList⟩)
  versioned := rulesAt fs (dir.join ⟨".gitignore".toList⟩)
  excluded  := ((WorkTree.exclude? fs dir).map (rulesAt fs)).getD []

-- What the nearest directory says whose rules of one kind apply.
def nearest (layers : List IgnoreLayer) (kind : IgnoreLayer → List IgnoreRule) (names : List Text)
    (isDir : Bool) : Option Bool :=
  layers.findSome? fun l =>
    IgnoreRule.verdict (kind l) (joinWith ['/'] (names.drop l.depth)) isDir

-- Whether a path is ignored; the layers are those of the directories on its way, the nearest one
-- first. A kind of file counts only where the kinds before it say nothing.
def ignored (layers : List IgnoreLayer) (names : List Text) (isDir : Bool) : Bool :=
  ((nearest layers tool names isDir).orElse fun _ =>
    (nearest layers versioned names isDir).orElse fun _ =>
      nearest layers excluded names isDir).getD false

-- The rules of the directories on the way to an entry, the nearest one first.
def above (fs : Files) (names : List Text) : List IgnoreLayer :=
  ((List.range names.length).map fun n => .ofDir fs n (.ofNames (names.take n))).reverse

-- Every directory adds its own rules.
def policy (fs : Files) : IgnorePolicy (List IgnoreLayer) where
  enter layers names path := .ofDir fs names.length path :: layers
  ignores                 := ignored

end IgnoreLayer

end LogOrigin
