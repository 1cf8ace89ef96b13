import LogOrigin.Log.Level
import LogOrigin.Log.Target
import LogOrigin.Log.Timestamp

-- The part of a message that is worth searching for, and shorter versions of a search text.

namespace LogOrigin

open Text

namespace Cleaning

-- A level word in brackets, in any case, with an optional colon.
def bracketedLevel? (t : Text) : Option Nat :=
  match t with
  | '[' :: r =>
    match Level.take r with
    | some (_, ']' :: r) => some (t.length - (dropOptional ':' r).length)
    | _                  => none
  | _        => none

-- A level word in capitals.
def takeCapitals (t : Text) : Option (Text × Text) :=
  Level.words.findSome? fun w => (dropLead? w.1 t).map fun r => (w.1, r)

-- A level word in capitals that stands apart from other words, with an optional colon.
def bareLevel? (before : Option Char) (t : Text) : Option Nat :=
  match takeCapitals t with
  | some (w, r) =>
    if isBoundary before t.head? && isBoundary w.getLast? r.head? then
      some (t.length - (dropOptional ':' r).length)
    else
      none
  | none        => none

def levelTag : Matcher :=
  fun before t => (bracketedLevel? t).orElse fun _ => bareLevel? before t

-- The message without timestamps, clock times, level tags and a path of names in front.
def clean (message : Text) : Text :=
  let t := replaceAll Timestamp.matcher [' '] message
  let t := replaceAll Clock.matcher [' '] t
  let t := replaceAll levelTag [' '] t
  trim (Target.dropPath (squeeze (trim t)))

-- Adds a text that is not the given one and not in the list yet.
def addNew (search : Text) (l : List Text) (t : Text) : List Text :=
  if t = search || l.contains t then l else l ++ [t]

-- The ways to drop words from the ends, in the order in which they are tried.
def drops (ws : List Text) : List (List Text) :=
  (if 2 ≤ ws.length then [ws.drop 1, ws.take (ws.length - 1)] else []) ++
    if 3 ≤ ws.length then
      [ws.drop 2, ws.take (ws.length - 2), (ws.drop 1).take (ws.length - 2)]
    else
      []

-- The different texts that are left when words are dropped from the ends of a search text.
def variants (search : Text) : List Text :=
  let texts := ((drops (words search)).filter (!·.isEmpty)).map (joinWith [' '])
  texts.foldl (addNew (trim search)) []

end Cleaning

end LogOrigin
