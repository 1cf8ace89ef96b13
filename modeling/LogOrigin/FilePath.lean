import LogOrigin.Text.Basic

-- Paths with slashes as separators. A path is kept as it is written; its components say which paths
-- mean the same.

namespace LogOrigin

structure FilePath where
  text : Text
  deriving DecidableEq, Inhabited

namespace FilePath

inductive Component where
  | root
  | current
  | parent
  | name (t : Text)
  deriving DecidableEq

-- The pieces between the slashes. The first one is empty if the path is absolute.
def segments (p : FilePath) : List Text :=
  Text.splitOn '/' p.text

-- Longer paths lead nowhere.
def maxBytes : Nat := 4095

def isTooLong (p : FilePath) : Bool :=
  maxBytes < Text.byteSize p.text

def isAbsolute (p : FilePath) : Bool :=
  p.text.head? = some '/'

-- Segments that name nothing: empty ones and single dots.
def isVoid (s : Text) : Bool :=
  s.isEmpty || s == ['.']

def ofSegment (s : Text) : Option Component :=
  if isVoid s then none
  else if s = ['.', '.'] then some .parent
  else some (.name s)

-- Void segments are skipped, except for a dot at the start of a relative path.
def components (p : FilePath) : List Component :=
  match p.segments with
  | []     => []
  | s :: l =>
    if p.isAbsolute then .root :: l.filterMap ofSegment
    else if s = ['.'] then .current :: l.filterMap ofSegment
    else (s :: l).filterMap ofSegment

-- Whether two paths have the same components.
def same (p q : FilePath) : Bool :=
  p.components == q.components

theorem same_refl (p : FilePath) : p.same p := by
  simp [same]

theorem same_congr {p q : FilePath} (h : p.same q) (r : FilePath) : r.same p = r.same q := by
  have h : p.components = q.components := by simpa [same] using h
  simp only [same, h]

-- A path inside a directory. An absolute path stands for itself.
def join (dir p : FilePath) : FilePath :=
  if p.isAbsolute || dir.text.isEmpty then p
  else if dir.text.getLast? = some '/' then ⟨dir.text ++ p.text⟩
  else ⟨dir.text ++ '/' :: p.text⟩

-- The last component, if it is a name.
def fileName? (p : FilePath) : Option Text :=
  match p.components.getLast? with
  | some (.name t) => some t
  | _              => none

-- A file name before and after its last dot. A dot at its start does not count.
def splitExtension? (name : Text) : Option (Text × Text) :=
  let after := (name.reverse.takeWhile (· != '.')).reverse
  let before := name.take (name.length - after.length - 1)
  if before.isEmpty then none else some (before, after)

def extension? (p : FilePath) : Option Text :=
  p.fileName?.bind splitExtension? |>.map (·.2)

def trimVoid (l : List Text) : List Text :=
  ((l.dropWhile isVoid).reverse.dropWhile isVoid).reverse

-- Drops void segments and that many others from the front.
def dropNamed : Nat → List Text → List Text
  | 0, l          => l
  | _ + 1, []     => []
  | n + 1, s :: l => if isVoid s then dropNamed (n + 1) l else dropNamed n l

-- What is left of the written path after its first `n` components, `n` being positive, without
-- void segments at its ends.
def dropComponents (p : FilePath) (n : Nat) : FilePath :=
  let rest := match p.components with
    | .root :: _ | .current :: _ => dropNamed (n - 1) p.segments.tail
    | _                          => dropNamed n p.segments
  ⟨Text.joinWith ['/'] (trimVoid rest)⟩

-- The rest of a path whose components start with those of another one.
def stripBase? (p base : FilePath) : Option FilePath :=
  if base.components = p.components.take base.components.length then
    if base.components.isEmpty then some p else some (p.dropComponents base.components.length)
  else
    none

-- Whether the components of a path end with those of another one.
def endsWith (p q : FilePath) : Bool :=
  q.components.reverse == p.components.reverse.take q.components.length

def root : FilePath := ⟨['/']⟩

-- The absolute path with these names.
def ofNames (names : List Text) : FilePath :=
  ⟨'/' :: Text.joinWith ['/'] names⟩

def current : FilePath := ⟨['.']⟩

end FilePath

end LogOrigin
