import LogOrigin.Text.Blank
import LogOrigin.Text.Lowercase

-- The log lines around a record that are shown together with it.

namespace LogOrigin

open Text

namespace Context

-- The different words of a line, in small letters.
def wordSet (line : Text) : List Text :=
  ((words line).map lowercase).eraseDups

-- The number of words of a set that occur in a line.
def shared (ws : List Text) (line : Text) : Nat :=
  let other := wordSet line
  ws.countP other.contains

-- Three tenths of the lines, rounded, come from before the current one.
def beforeCount (cap : Nat) : Nat :=
  (3 * cap + 5) / 10

-- The indices around the current one that are always taken.
def window (size current cap : Nat) : List Nat :=
  let before := beforeCount cap
  let first := current - before
  let last := min (current + (cap - min before cap)) (size - 1)
  ((List.range (last + 1)).drop first).filter (· != current)

-- The indices outside the window whose lines share words with the current one, best first.
def others (lines : List Text) (ws : List Text) (current : Nat) (taken : List Nat) : List Nat :=
  let scored := lines.zipIdx.filterMap fun (line, i) =>
    if i = current || taken.contains i then none
    else
      let n := shared ws line
      if n = 0 then none else some (i, n)
  (scored.mergeSort fun a b => b.2 ≤ a.2).map (·.1)

-- At most `cap` indices of lines: the window, filled up with the lines that share most words.
def select (lines : List Text) (current cap : Nat) : List Nat :=
  match lines[current]? with
  | none      => []
  | some line =>
    if cap = 0 then
      []
    else
      let taken := window lines.length current cap
      let room := cap - taken.length
      (taken ++ (others lines (wordSet line) current taken).take room).mergeSort (· ≤ ·)

def selectLines (lines : List Text) (current cap : Nat) : List Text :=
  (select lines current cap).filterMap (lines[·]?)

end Context

end LogOrigin
