import LogOrigin.Failure
import LogOrigin.Search.Score
import LogOrigin.Toml.Reader

-- The settings of a search, of log contexts and of caller trees, and their reading from a file.

namespace LogOrigin

structure SearchSettings where
  -- Files beyond this count are not scanned.
  maxFiles     : Nat
  -- Larger files are skipped; in bytes.
  maxFileSize  : Nat
  extensions   : List Text
  skipDirs     : List Text
  -- Lines that score less are dropped.
  minScore     : Points
  -- Shorter texts are not searched for.
  minSearchLen : Nat
  weights      : Weights
  deriving DecidableEq

structure CallerSettings where
  -- Lines of a snippet on each side of a call.
  snippetRadius   : Nat
  -- The depth to which cached callers are attached.
  maxHydrateDepth : Nat
  -- How long to wait for a load elsewhere.
  inflightWaitMs  : Nat
  deriving DecidableEq

structure Settings where
  search  : SearchSettings
  -- The number of log lines in a context.
  cap     : Nat
  callers : CallerSettings
  deriving DecidableEq

namespace Settings

def defaultExtensions : List Text :=
  ["rs", "py", "js", "jsx", "ts", "tsx", "mjs", "cjs", "go", "java", "kt", "kts", "scala", "c", "h",
    "cc", "cpp", "cxx", "hpp", "hh", "cs", "rb", "php", "swift", "m", "mm", "ex", "exs", "erl", "hs",
    "lua", "sh", "dart", "zig"].map String.toList

def defaultSkipDirs : List Text :=
  [".git", "target", "node_modules", "dist", "build", "out", "vendor", "third_party", "__pycache__",
    ".venv", "venv", ".tox", ".mypy_cache", ".pytest_cache", ".next", ".nuxt", ".gradle", ".idea",
    ".vscode", "coverage"].map String.toList

def defaultWeights : Weights where
  base          := 10
  exact         := 30
  declaration   := 20
  logging       := 15
  importPenalty := 10

def default : Settings where
  search  := {
    maxFiles     := 5000
    maxFileSize  := 1024 * 1024
    extensions   := defaultExtensions
    skipDirs     := defaultSkipDirs
    minScore     := 1
    minSearchLen := 3
    weights      := defaultWeights
  }
  cap     := 15
  callers := {
    snippetRadius   := 1
    maxHydrateDepth := 32
    inflightWaitMs  := 30000
  }

-- The name of the settings file in a repository.
def fileName : Text := "logtrace.toml".toList

-- The members of a table of settings. Those with other names are passed over, but they have to be
-- readable.
def known (names : List String) (m : Toml.Entries) : Option Toml.Entries :=
  let (wanted, others) := m.partition fun e => (names.map String.toList).contains e.1
  if Toml.entriesReadable others then some wanted else none

-- The members of a group of settings. A list gives them in their order, and a date gives none.
def members (names : List String) : Toml → Option Toml.Entries
  | .table _ m => known names m
  | .array l   => some ((names.map String.toList).zip l)
  | .datetime  => some []
  | _          => none

-- The value of a member, or the default if there is no such member.
def member {α : Type} (m : Toml.Entries) (name : String) (d : α) (f : Toml → Option α) : Option α :=
  match KeyMap.get? name.toList m with
  | some v => f v
  | none   => some d

def numberUpTo (max : Nat) : Toml → Option Nat
  | .integer n => if 0 ≤ n && n ≤ max then some n.toNat else none
  | _          => none

def points (v : Toml) : Option Points :=
  (numberUpTo 0xFFFFFFFF v).map fun n => n

def large : Toml → Option Nat :=
  numberUpTo 0xFFFFFFFFFFFFFFFF

def textOf : Toml → Option Text
  | .string t => some t
  | _         => none

def texts : Toml → Option (List Text)
  | .array l => l.mapM textOf
  | _        => none

def weightsOf (v : Toml) : Option Weights := do
  let m ← members ["base", "exact", "declaration", "logging", "import_penalty"] v
  let d := defaultWeights
  return {
    base          := ← member m "base" d.base points
    exact         := ← member m "exact" d.exact points
    declaration   := ← member m "declaration" d.declaration points
    logging       := ← member m "logging" d.logging points
    importPenalty := ← member m "import_penalty" d.importPenalty points
  }

def searchOf (v : Toml) : Option SearchSettings := do
  let m ← members ["max_files", "max_file_size", "extensions", "skip_dirs", "min_score",
    "min_search_len", "weights"] v
  let d := default.search
  return {
    maxFiles     := ← member m "max_files" d.maxFiles large
    maxFileSize  := ← member m "max_file_size" d.maxFileSize large
    extensions   := ← member m "extensions" d.extensions texts
    skipDirs     := ← member m "skip_dirs" d.skipDirs texts
    minScore     := ← member m "min_score" d.minScore points
    minSearchLen := ← member m "min_search_len" d.minSearchLen large
    weights      := ← member m "weights" d.weights weightsOf
  }

def capOf (v : Toml) : Option Nat := do
  let m ← members ["cap"] v
  member m "cap" default.cap large

def callersOf (v : Toml) : Option CallerSettings := do
  let m ← members ["snippet_radius", "max_hydrate_depth", "inflight_wait_ms"] v
  let d := default.callers
  return {
    snippetRadius   := ← member m "snippet_radius" d.snippetRadius large
    maxHydrateDepth := ← member m "max_hydrate_depth" d.maxHydrateDepth large
    inflightWaitMs  := ← member m "inflight_wait_ms" d.inflightWaitMs large
  }

-- The settings that a text gives; what it leaves out takes its default, and names that are not
-- known are passed over.
def ofText? (t : Text) : Option Settings := do
  let m ← (Toml.read? t).bind (known ["search", "context", "callers"])
  let d := default
  return {
    search  := ← member m "search" d.search searchOf
    cap     := ← member m "context" d.cap capOf
    callers := ← member m "callers" d.callers callersOf
  }

def ofText (t : Text) : Except Failure Settings :=
  match ofText? t with
  | some s => .ok s
  | none   => .error .settings

-- The file to read settings from: the one that is asked for, or that of the repository.
def source? (fs : Files) (explicit repository : Option FilePath) : Option FilePath :=
  match explicit with
  | some p => some p
  | none   => (repository.map (·.join ⟨fileName⟩)).filter fs.isFile

def load (fs : Files) (explicit repository : Option FilePath) : Except Failure Settings :=
  match source? fs explicit repository with
  | none   => .ok default
  | some p =>
    match fs.read p with
    | .ok t    => ofText t
    | .error e => .error (.file e)

end Settings

end LogOrigin
