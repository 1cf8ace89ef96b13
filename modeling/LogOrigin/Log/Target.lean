import LogOrigin.Text.Blank
import LogOrigin.Text.Scan

-- Targets, the names of the program parts that log lines come from: names joined by double colons.

namespace LogOrigin

open Text

namespace Target

-- What follows the first character of a target: name characters and double colons, each of which a
-- new name follows.
def takeTail (p : Char → Bool) : Text → Text × Text
  | []          => ([], [])
  | ':' :: t    =>
    match t with
    | ':' :: c :: u =>
      if isIdentStart c then
        let r := takeTail p u
        (':' :: ':' :: c :: r.1, r.2)
      else
        ([], ':' :: t)
    | _             => ([], ':' :: t)
  | c :: t      =>
    if p c then
      let r := takeTail p t
      (c :: r.1, r.2)
    else
      ([], c :: t)

-- Takes a target whose names have characters of a class after their first one.
def takeWith (p : Char → Bool) : Reader
  | []     => none
  | c :: t =>
    if isIdentStart c then
      let r := takeTail p t
      some (c :: r.1, r.2)
    else
      none

def isTargetChar (c : Char) : Bool :=
  isWord c || c == '-' || c == '.'

-- The number of double colons, each of which stands between two names.
def joints (target : Text) : Nat :=
  target.count ':' / 2

-- Takes a path of at least two names.
def takePath (t : Text) : Option (Text × Text) :=
  (takeWith isWord t).filter fun r => 1 ≤ joints r.1

-- A target at the front of a message, with the message after its colon. Blanks or the end of the
-- text follow the colon.
def split? (t : Text) : Option (Text × Text) :=
  match takeWith isTargetChar t with
  | some (target, ':' :: [])     => some (target, [])
  | some (target, ':' :: c :: r) => if isBlank c then some (target, trimStart r) else none
  | _                            => none

-- A path of at least two names at the front of a text, with a colon and a blank after it.
def leadingPath? (t : Text) : Option Text :=
  match takePath t with
  | some (path, ':' :: c :: _) => if isBlank c then some path else none
  | _                          => none

-- A path of at least two names with blanks after it, before which a colon may stand.
def splitPath? (t : Text) : Option (Text × Text) :=
  match takePath t with
  | some (path, r) =>
    match dropOptional ':' r with
    | c :: r => if isBlank c then some (path, trimStart r) else none
    | []     => none
  | none           => none

-- The text without the path of at least two names and the colon in front of it. If no colon follows
-- the path, its last double colon serves instead, as long as two names stand before it.
def dropPath (t : Text) : Text :=
  match takePath t with
  | some (_, ':' :: r) => trimStart r
  | some (path, r)     =>
    if 2 ≤ joints path then
      let last := (path.reverse.takeWhile (· != ':')).reverse
      ':' :: last ++ r
    else
      t
  | none               => t

end Target

end LogOrigin
