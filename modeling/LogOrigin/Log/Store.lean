import LogOrigin.Log.Parser
import LogOrigin.Text.Pattern

-- The records of a log that has been loaded. A record is known by its place in the log.

namespace LogOrigin

open Text

structure RecordStore where
  records : List Record

-- Records with the same key.
structure RecordGroup where
  key      : Text
  records  : List Nat
  maxLevel : Level
  deriving DecidableEq

namespace RecordStore

def empty : RecordStore := ⟨[]⟩

-- Replaces the records. If the text has none the old ones stay.
def load (s : RecordStore) (p : Parser) (t : Text) : Except Failure Nat × RecordStore :=
  match p.parseBatch t with
  | .ok l    => (.ok l.length, ⟨l⟩)
  | .error e => (.error e, s)

def size (s : RecordStore) : Nat :=
  s.records.length

def isEmpty (s : RecordStore) : Bool :=
  s.records.isEmpty

def get (s : RecordStore) (id : Nat) : Except Failure Record :=
  match s.records[id]? with
  | some r => .ok r
  | none   => .error (.unknownRecord id)

def set (s : RecordStore) (id : Nat) (r : Record) : RecordStore :=
  ⟨s.records.set id r⟩

def setMessage (s : RecordStore) (id : Nat) (t : Text) : Except Failure Unit × RecordStore :=
  match s.get id with
  | .ok r    => (.ok (), s.set id { r with message := t })
  | .error e => (.error e, s)

theorem get_eq_ok {s : RecordStore} {id : Nat} {r : Record} :
    s.get id = .ok r ↔ s.records[id]? = some r := by
  unfold get
  split <;> simp_all

-- The records with their numbers.
def entries (s : RecordStore) : List (Nat × Record) :=
  s.records.zipIdx.map fun e => (e.2, e.1)

-- The numbers of the records that pass a test.
def idsWhere (s : RecordStore) (p : Record → Bool) : List Nat :=
  (s.entries.filter fun e => p e.2).map (·.1)

-- The records at or above a level.
def atLeast (s : RecordStore) (l : Level) : List Nat :=
  s.idsWhere fun r => l.rank ≤ r.level.rank

-- The records in the order of their timestamps; equal ones keep their order.
def chronological (s : RecordStore) : List Nat :=
  (s.entries.mergeSort fun a b => le a.2.timestamp b.2.timestamp).map (·.1)

-- Adds a record to the group of its key.
def addToGroup (m : KeyMap (List (Nat × Record))) (e : Nat × Record) :
    KeyMap (List (Nat × Record)) :=
  KeyMap.modify e.2.groupKey [] (· ++ [e]) m

def groupOf (e : Text × List (Nat × Record)) : RecordGroup where
  key      := e.1
  records  := e.2.map (·.1)
  maxLevel := (e.2.map (·.2.level)).foldl Level.max .trace

-- The groups in the order of their keys.
def groups (s : RecordStore) : List RecordGroup :=
  (s.entries.foldl addToGroup []).map groupOf

-- A word that names a failure.
def failureTerm : Pattern :=
  open Pattern in
  inOrder [
    boundary,
    oneOf [
      anyCases ["error", "exception", "failed", "failure", "traceback"],
      seq (anyCase "panic") (option (anyCase "ked")),
      anyCase "fatal"],
    boundary]

def isFailure (r : Record) : Bool :=
  r.level = .error || failureTerm.occursIn r.message

-- The records of errors, and those whose message names a failure.
def errors (s : RecordStore) : List Nat :=
  s.idsWhere isFailure

def lineOf (r : Record) : Text :=
  trim (stripEscapes r.raw)

-- The lines of the log as they are shown.
def lines (s : RecordStore) : List Text :=
  s.records.map lineOf

end RecordStore

end LogOrigin
