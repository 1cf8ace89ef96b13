import LogOrigin.Text.Blank
import LogOrigin.Text.Scan

-- Severity levels of log records.

namespace LogOrigin

open Text

inductive Level where
  | trace
  | debug
  | info
  | warn
  | error
  deriving DecidableEq, Inhabited

-- Text that names no level.
structure UnknownLevel where
  text : Text

def UnknownLevel.message (e : UnknownLevel) : Text :=
  "unknown log level: ".toList ++ e.text

namespace Level

def rank : Level → Nat
  | trace => 0
  | debug => 1
  | info  => 2
  | warn  => 3
  | error => 4

theorem rank_injective {l m : Level} (h : l.rank = m.rank) : l = m := by
  cases l <;> cases m <;> simp_all [rank]

def max (l m : Level) : Level :=
  if l.rank < m.rank then m else l

def name : Level → Text
  | trace => "TRACE".toList
  | debug => "DEBUG".toList
  | info  => "INFO".toList
  | warn  => "WARN".toList
  | error => "ERROR".toList

-- The words for levels inside log lines. No word stands before a longer one that it starts.
def words : List (Text × Level) := [
  ("TRACE".toList, trace), ("DEBUG".toList, debug), ("INFO".toList, info),
  ("WARNING".toList, warn), ("WARN".toList, warn), ("ERROR".toList, error),
  ("FATAL".toList, error), ("CRITICAL".toList, error)]

-- Takes a level word in any case.
def take (t : Text) : Option (Level × Text) :=
  words.findSome? fun w => (takeWord w.1 t).map fun r => (w.2, r.2)

-- The level that a text of its own names; blanks around it and case do not matter.
def ofText (t : Text) : Except UnknownLevel Level :=
  let t := (trim t).map asciiUpper
  match (("ERR".toList, error) :: words).find? (·.1 = t) with
  | some w => .ok w.2
  | none   => .error ⟨t⟩

end Level

end LogOrigin
