import LogOrigin.Search.Cleaning
import LogOrigin.Search.Discovery
import LogOrigin.Search.FileName
import LogOrigin.Search.Hint

-- The search for the origin of a record in the source files of a repository.

namespace LogOrigin

open Text

-- A repository with what is remembered about it: the files that were discovered, and how often they
-- were scanned.
structure Resolver where
  root     : FilePath
  settings : SearchSettings
  files    : Option (List FilePath)
  scans    : Nat
  deriving DecidableEq

namespace Resolver

def new (root : FilePath) (settings : SearchSettings) : Resolver :=
  ⟨root, settings, none, 0⟩

-- Forgets the files, so that they are discovered again.
def invalidate (r : Resolver) : Resolver :=
  { r with files := none }

-- The source files, discovered at their first use.
def sources (r : Resolver) (fs : Files) : Except Failure (List FilePath) × Resolver :=
  match r.files with
  | some files => (.ok files, r)
  | none       =>
    match Discovery.ofRoot fs r.root r.settings with
    | .ok d    => (.ok d.files, { r with files := some d.files })
    | .error e => (.error e, r)

-- The lines of a file that score enough. A file that cannot be read as text has none.
def hits (fs : Files) (s : SearchSettings) (needle : Text) (index : Nat) (file : FilePath) :
    List Candidate :=
  match fs.read file with
  | .error _ => []
  | .ok t    =>
    let lowered := lowercase needle
    (lines t).zipIdx.filterMap fun (line, n) =>
      let score := Score.ofLowered line needle lowered s.weights
      if max s.minScore 1 ≤ score then some ⟨index, file, n, score⟩ else none

def scan (fs : Files) (s : SearchSettings) (needle : Text) (files : List FilePath) :
    List Candidate :=
  Score.rank (files.zipIdx.flatMap fun (file, index) => hits fs s needle index file)

-- The lines of all source files that fit a text, the best one first. Short texts are not searched
-- for.
def search (r : Resolver) (fs : Files) (text : Text) (cancelled : Bool) :
    Except Failure (List Candidate) × Resolver :=
  let needle := trim text
  if needle.length < r.settings.minSearchLen then
    (.ok [], r)
  else
    match r.sources fs with
    | (.error e, r)  => (.error e, r)
    | (.ok files, r) =>
      let r := { r with scans := r.scans + 1 }
      if cancelled then (.error .cancelled, r) else (.ok (scan fs r.settings needle files), r)

def ofCache? (fs : Files) (root : FilePath) (r : Record) : Option Origin :=
  r.location.bind fun l =>
    (Hint.translate? fs root l.file).map fun file => .ofLocation .cache ⟨file, l.line⟩

def ofHints? (fs : Files) (root : FilePath) (r : Record) : Option Origin :=
  (Hint.locations r.message).findSome? fun l =>
    (Hint.translate? fs root l.file).map fun file => .ofLocation .hint ⟨file, l.line⟩

-- The text that an analysis believes to stand in the source.
def static? (r : Record) : Option Text :=
  (r.analysis.map fun a => trim a.staticText).filter (!·.isEmpty)

-- The texts to search for, in their order.
def needles (r : Record) : List (Stage × Text) :=
  let static := static? r
  let cleaned := Cleaning.clean r.message
  (match static with
    | some s => (.staticString, s) :: (Cleaning.variants s).map fun v => (.variant, v)
    | none   => []) ++
  if cleaned.isEmpty || static = some cleaned then [] else [(.cleanedMessage, cleaned)]

-- The best line for the first text that has one.
def firstMatch (fs : Files) (cancelled : Bool) :
    List (Stage × Text) → Resolver → Except Failure (Option Origin) × Resolver
  | [], r                   => (.ok none, r)
  | (stage, needle) :: l, r =>
    match r.search fs needle cancelled with
    | (.error e, r)      => (.error e, r)
    | (.ok (c :: _), r)  => (.ok (some (.ofCandidate stage c)), r)
    | (.ok [], r)        => firstMatch fs cancelled l r

def ofFileName (r : Resolver) (fs : Files) (record : Record) :
    Except Failure (Option Origin) × Resolver :=
  match FileName.stems r.settings.minSearchLen record with
  | []    => (.ok none, r)
  | stems =>
    match r.sources fs with
    | (.error e, r')  => (.error e, r')
    | (.ok files, r') =>
      let file? := FileName.best? r.root stems files
      (.ok (file?.map fun file => .ofLocation .filename ⟨file, 0⟩), r')

-- The stages that look at the source files.
def ofSources (r : Resolver) (fs : Files) (record : Record) (cancelled : Bool) :
    Except Failure (Option Origin) × Resolver :=
  match firstMatch fs cancelled (needles record) r with
  | (.ok none, r) => if cancelled then (.error .cancelled, r) else r.ofFileName fs record
  | result        => result

def stages (r : Resolver) (fs : Files) (record : Record) (cancelled : Bool) :
    Except Failure (Option Origin) × Resolver :=
  match (ofCache? fs r.root record).or (ofHints? fs r.root record) with
  | some o => (.ok (some o), r)
  | none   => r.ofSources fs record cancelled

def resolutionOf : Except Failure (Option Origin) → Except Failure Resolution
  | .ok (some o)       => .ok (.found o)
  | .ok none           => .ok .notFound
  | .error .cancelled  => .ok .cancelled
  | .error e           => .error e

-- The origin of a record, by the first stage that finds one.
def resolve (r : Resolver) (fs : Files) (record : Record) (cancelled : Bool) :
    Except Failure Resolution × Resolver :=
  let (result, r) := r.stages fs record cancelled
  (resolutionOf result, r)

-- A record that keeps the location of its origin.
def keep (record : Record) : Except Failure Resolution → Record
  | .ok (.found o) => { record with location := some o.location }
  | _              => record

-- Resolves a record and keeps the location in it.
def locate (r : Resolver) (fs : Files) (record : Record) (cancelled : Bool) :
    Except Failure Resolution × Record × Resolver :=
  let (result, r) := r.resolve fs record cancelled
  (result, keep record result, r)

end Resolver

end LogOrigin
