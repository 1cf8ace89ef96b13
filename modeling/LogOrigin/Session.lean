import LogOrigin.Callers.Expansion
import LogOrigin.Cancellation
import LogOrigin.Log.Context
import LogOrigin.Log.Store

-- A session: one log, one repository, and what has been found out about the records of the log. The
-- origin of a record can be searched for outside the session, by a handle that it gives out; only the
-- result for the latest handle counts.

namespace LogOrigin

-- The record whose origin is being searched for. It is running while somebody has its handle.
structure Selection where
  id      : Nat
  token   : CancellationToken
  running : Bool
  deriving DecidableEq

-- A search that has not been run yet, with the record as it was at the beginning.
structure PendingLocate where
  id         : Nat
  token      : CancellationToken
  generation : Nat
  record     : Record

structure CompletedLocate where
  id         : Nat
  token      : CancellationToken
  generation : Nat
  result     : Except Failure Resolution

structure Session (σ : Type) where
  settings     : Settings
  advisers     : Advisers σ
  surroundings : Surroundings σ
  store        : RecordStore
  -- How many logs have been loaded.
  generation   : Nat
  tokens       : Cancellations
  selection    : Option Selection

namespace Session

variable {σ : Type}

def new (root : FilePath) (settings : Settings) (advisers : Advisers σ) (memory : σ) :
    Session σ where
  settings     := settings
  advisers     := advisers
  surroundings := ⟨.empty, .new root settings.search, memory⟩
  store        := .empty
  generation   := 0
  tokens       := .empty
  selection    := none

-- A session that needs nobody outside.
def offline (root : FilePath) (settings : Settings) : Session Unit :=
  new root settings ⟨.lexical, .text⟩ ()

def resolver (s : Session σ) : Resolver :=
  s.surroundings.resolver

def withResolver (s : Session σ) (r : Resolver) : Session σ :=
  { s with surroundings := { s.surroundings with resolver := r } }

def setRecord (s : Session σ) (id : Nat) (r : Record) : Session σ :=
  { s with store := s.store.set id r }

-- Calls off the search of the selection.
def cancelSelection (s : Session σ) : Session σ :=
  match s.selection with
  | some x => { s with tokens := s.tokens.cancel x.token }
  | none   => s

-- Everything that is remembered about the log and the repository is forgotten.
def forget (w : Surroundings σ) : Surroundings σ :=
  { w with cache := w.cache.clear, resolver := w.resolver.invalidate }

-- Loads another log. A text without records changes nothing.
def load (s : Session σ) (t : Text) : Except Failure Nat × Session σ :=
  match s.store.load .standard t with
  | (.error e, _)  => (.error e, s)
  | (.ok n, store) =>
    (.ok n, { s.cancelSelection with
      store        := store
      surroundings := forget s.surroundings
      generation   := s.generation + 1
      selection    := none })

def loadFile (s : Session σ) (fs : Files) (file : FilePath) : Except Failure Nat × Session σ :=
  match fs.read file with
  | .ok t    => s.load t
  | .error e => (.error (.file e), s)

-- The analysis of a record. The oracle is asked until it has answered once.
def analyze (s : Session σ) (id : Nat) : Except Failure (Option Analysis) × Session σ :=
  match s.store.get id with
  | .error e => (.error e, s)
  | .ok r    =>
    match r.analysis with
    | some a => (.ok (some a), s)
    | none   =>
      let (answer, memory) := s.advisers.oracle.analyze r.message s.surroundings.memory
      let s := { s with surroundings := { s.surroundings with memory := memory } }
      match answer with
      | .ok a    => (.ok (some a), s.setRecord id { r with analysis := some a })
      | .error _ => (.ok none, s)

def inFlight (s : Session σ) (id : Nat) : Bool :=
  s.selection.any fun x => x.id == id && !s.tokens.isCancelled x.token && x.running

-- Selects a record and gives out a handle for its search, unless this search is in flight already.
-- The search of the selection before is called off.
def beginLocate (s : Session σ) (id : Nat) : Except Failure (Option PendingLocate) × Session σ :=
  match s.store.get id with
  | .error e => (.error e, s)
  | .ok r    =>
    if s.inFlight id then
      (.ok none, s)
    else
      let s := s.cancelSelection
      let (token, tokens) := s.tokens.issue
      (.ok (some ⟨id, token, s.generation, r⟩),
        { s with tokens := tokens, selection := some ⟨id, token, true⟩ })

def cancel (s : Session σ) (token : CancellationToken) : Session σ :=
  { s with tokens := s.tokens.cancel token }

-- The holder of a handle gives it up.
def release (s : Session σ) (token : CancellationToken) : Session σ :=
  { s with selection := s.selection.map fun x =>
      if x.token = token then { x with running := false } else x }

-- Runs the search of a handle.
def run (s : Session σ) (fs : Files) (p : PendingLocate) : CompletedLocate × Session σ :=
  let (result, r) := s.resolver.resolve fs p.record (s.tokens.isCancelled p.token)
  (⟨p.id, p.token, p.generation, result⟩, s.withResolver r)

-- Whether a result belongs to the selection.
def isCurrent (s : Session σ) (d : CompletedLocate) : Bool :=
  d.generation == s.generation && s.selection.any (·.token == d.token)

-- Takes the result of a search. A result that is not current has no effect.
def finish (s : Session σ) (d : CompletedLocate) :
    Except Failure (Option Resolution) × Session σ :=
  if s.isCurrent d then
    let s := { s with selection := none }
    match d.result with
    | .error e      => (.error e, s)
    | .ok (.found o) =>
      match s.store.get d.id with
      | .error e => (.error e, s)
      | .ok r    => (.ok (some (.found o)), s.setRecord d.id { r with location := some o.location })
    | .ok r         => (.ok (some r), s)
  else
    (.ok none, s)

-- Searches for the origin of a record at once, whatever the selection is.
def locate (s : Session σ) (fs : Files) (id : Nat) : Except Failure Resolution × Session σ :=
  match s.store.get id with
  | .error e => (.error e, s)
  | .ok r    =>
    let (result, r, resolver) := s.resolver.locate fs r false
    (result, (s.setRecord id r).withResolver resolver)

-- What an oracle is told about the log around a record.
def context (s : Session σ) (id : Nat) : Except Failure ExpansionContext :=
  match s.store.get id with
  | .error e => .error e
  | .ok r    =>
    let lines := s.store.lines
    .ok {
      currentLine  := (lines[id]?).getD []
      staticText   := (r.analysis.map (·.staticText)).filter (!·.isEmpty)
      contextLines := Context.selectLines lines id s.settings.cap
    }

-- The location of a record, which is searched for if it is not known.
def location (s : Session σ) (fs : Files) (id : Nat) : Except Failure Location × Session σ :=
  match s.store.get id with
  | .error e => (.error e, s)
  | .ok r    =>
    match r.location with
    | some l => (.ok l, s)
    | none   =>
      match s.locate fs id with
      | (.ok (.found o), s) => (.ok o.location, s)
      | (.ok _, s)          => (.error (.unresolved id), s)
      | (.error e, s)       => (.error e, s)

def expandNode (s : Session σ) (fs : Files) (ctx : ExpansionContext) (n : CallerNode) :
    CallerNode × Session σ :=
  let (n, w) := Expansion.expand s.advisers s.settings.callers fs ctx false n s.surroundings
  (n, { s with surroundings := w })

def isTreeAt (file : FilePath) (line : Nat) (n : CallerNode) : Bool :=
  n.info.file.same file && n.info.line == line

-- The tree of a record at a location. It is built anew if the record has none for this location.
def treeAt (s : Session σ) (fs : Files) (id : Nat) (file : FilePath) (line : Nat) :
    Except Failure CallerNode × Session σ :=
  match s.store.get id with
  | .error e => (.error e, s)
  | .ok r    =>
    match r.callers.filter (isTreeAt file line) with
    | some n => (.ok n, s)
    | none   =>
      match s.context id with
      | .error e => (.error e, s)
      | .ok ctx  =>
        let (n, s) := s.expandNode fs ctx (.root file line)
        (.ok n, s.setRecord id { r with callers := some n })

-- The callers of the origin of a record, to the first level.
def callers (s : Session σ) (fs : Files) (id : Nat) : Except Failure CallerNode × Session σ :=
  match s.location fs id with
  | (.error e, s) => (.error e, s)
  | (.ok l, s)    =>
    match Hint.translate? fs s.resolver.root l.file with
    | none      => (.error (.unresolved id), s)
    | some file => s.treeAt fs id file l.line

-- Expands the node at the end of a way of child indices in the tree of a record, if there is one.
def expand (s : Session σ) (fs : Files) (id : Nat) (way : List Nat) :
    Except Failure (Option CallerNode) × Session σ :=
  match s.context id, s.store.get id with
  | .error e, _    => (.error e, s)
  | _, .error e    => (.error e, s)
  | .ok ctx, .ok r =>
    match r.callers with
    | none      => (.error (.unresolved id), s)
    | some tree =>
      match tree.descendant? way with
      | none   => (.ok none, s)
      | some n =>
        let (n, s) := s.expandNode fs ctx n
        (.ok (some n), s.setRecord id { r with callers := some (tree.replaceAt way n) })

end Session

end LogOrigin
