import LogOrigin.Proofs.Callers.Expansion
import LogOrigin.Proofs.Session.Handles

-- A front end that works with a session request by request while files change. It knows its handles
-- by the order in which they were given out.

namespace LogOrigin

inductive Request where
  | load (t : Text)
  | loadFile (file : FilePath)
  | analyze (id : Nat)
  | begin (id : Nat)
  | run (handle : Nat)
  | finish (handle : Nat)
  | drop (handle : Nat)
  | cancel (handle : Nat)
  | locate (id : Nat)
  | callers (id : Nat)
  | expand (id : Nat) (way : List Nat)
  | write (names : List Text) (bytes : ByteArray)
  | delete (names : List Text)

inductive Answer where
  | loaded (answer : Except Failure Nat)
  | analyzed (answer : Except Failure (Option Analysis))
  -- Whether a handle was given out.
  | began (answer : Except Failure Bool)
  | ran (result : Except Failure Resolution)
  | finished (answer : Except Failure (Option Resolution))
  | located (answer : Except Failure Resolution)
  | listed (answer : Except Failure CallerNode)
  | expanded (answer : Except Failure (Option CallerNode))
  | done
  -- The handle is of another kind or has been given up.
  | missing

structure FrontEnd (σ : Type) where
  session : Session σ
  files   : Files
  handles : List (Option Handle)

-- What there is to see after a request: the answer, the records, the source files and the callers
-- that are remembered, and the memory of the oracle.
structure Observation (σ : Type) where
  answer  : Answer
  records : RecordStore
  sources : Option (List FilePath)
  known   : List (CallerKey × CacheSlot)
  memory  : σ

def Surroundings.withLog {σ : Type} (w : Surroundings σ) (log : List Oracle.Call) :
    Surroundings (σ × List Oracle.Call) :=
  ⟨w.cache, w.resolver, w.memory, log⟩

-- The same session, whose oracle writes down what it is asked from now on.
def Session.withLog {σ : Type} (s : Session σ) (log : List Oracle.Call) :
    Session (σ × List Oracle.Call) where
  settings     := s.settings
  advisers     := s.advisers.logged
  surroundings := s.surroundings.withLog log
  store        := s.store
  generation   := s.generation
  tokens       := s.tokens
  selection    := s.selection

namespace FrontEnd

variable {σ : Type}

def handle? (c : FrontEnd σ) (k : Nat) : Option Handle :=
  c.handles[k]?.join

def step (c : FrontEnd σ) : Request → Answer × FrontEnd σ
  | .load t          =>
    let (a, s) := c.session.load t
    (.loaded a, { c with session := s })
  | .loadFile file   =>
    let (a, s) := c.session.loadFile c.files file
    (.loaded a, { c with session := s })
  | .analyze id      =>
    let (a, s) := c.session.analyze id
    (.analyzed a, { c with session := s })
  | .begin id        =>
    let (a, s) := c.session.beginLocate id
    (.began (a.map Option.isSome), { c with
      session := s
      handles := c.handles ++ (SharedSession.given c.handles.length a).map some })
  | .run k           =>
    match c.handle? k with
    | some (.pending n p) =>
      let (d, s) := c.session.run c.files p
      (.ran d.result, { c with session := s, handles := c.handles.set k (some (.completed n d)) })
    | _                   => (.missing, c)
  | .finish k        =>
    match c.handle? k with
    | some (.completed _ d) =>
      let (a, s) := c.session.finish d
      (.finished a, { c with session := s, handles := c.handles.set k none })
    | _                     => (.missing, c)
  | .drop k          =>
    match c.handle? k with
    | some h =>
      (.done, { c with
        session := c.session.release h.ticket.token
        handles := c.handles.set k none })
    | none   => (.missing, c)
  | .cancel k        =>
    match c.handle? k with
    | some h => (.done, { c with session := c.session.cancel h.ticket.token })
    | none   => (.missing, c)
  | .locate id       =>
    let (a, s) := c.session.locate c.files id
    (.located a, { c with session := s })
  | .callers id      =>
    let (a, s) := c.session.callers c.files id
    (.listed a, { c with session := s })
  | .expand id way   =>
    let (a, s) := c.session.expand c.files id way
    (.expanded a, { c with session := s })
  | .write names b   => (.done, { c with files := c.files.write names b })
  | .delete names    => (.done, { c with files := c.files.delete names })

def run (c : FrontEnd σ) : List Request → FrontEnd σ
  | []     => c
  | q :: l => (c.step q).2.run l

def observe (c : FrontEnd σ) : List Request → List (Observation σ)
  | []     => []
  | q :: l =>
    let (a, c) := c.step q
    let w := c.session.surroundings
    ⟨a, c.session.store, w.resolver.files, w.cache.slots, w.memory⟩ :: c.observe l

def withLog (c : FrontEnd σ) (log : List Oracle.Call) : FrontEnd (σ × List Oracle.Call) :=
  ⟨c.session.withLog log, c.files, c.handles⟩

-- The questions to the oracle, the latest one first.
def calls (c : FrontEnd σ) (l : List Request) : List Oracle.Call :=
  ((c.withLog []).run l).session.surroundings.memory.2

end FrontEnd

end LogOrigin
