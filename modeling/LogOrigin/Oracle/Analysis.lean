import LogOrigin.Json.Reader
import LogOrigin.Json.Writer
import LogOrigin.Text.Blank

-- What an oracle says about a message, and how its loosely written replies are read.

namespace LogOrigin

open Text

-- The part of a message that is believed to stand in the source, and the values of the other parts.
structure Analysis where
  staticText : Text
  values     : KeyMap Text
  deriving DecidableEq

namespace Reply

-- The part of a text from the first character `a` to the last character `b`, both included, if they
-- stand in this order.
def between? (a b : Char) (t : Text) : Option Text :=
  let t := t.dropWhile (· != a)
  let t := (t.reverse.dropWhile (· != b)).reverse
  if t.length ≤ 1 then none else some t

-- The document in a reply: the whole text, else the outermost object, else the outermost array.
def document? (t : Text) : Option Json :=
  (Json.read? (trim t)).orElse fun _ =>
    ((between? '{' '}' t).bind Json.read?).orElse fun _ => (between? '[' ']' t).bind Json.read?

end Reply

namespace Analysis

def empty : Analysis := ⟨[], []⟩

-- Members that are missing or of another kind count as empty.
def ofJson (v : Json) : Analysis where
  staticText :=
    match (v.get? "static_search_string".toList).orElse
        fun _ => v.get? "staticSearchString".toList with
    | some s => s.plain
    | none   => []
  values     :=
    match v.get? "variables".toList with
    | some (.object m) => m.map fun e => (e.1, e.2.plain)
    | _                => []

def ofReply (t : Text) : Analysis :=
  match Reply.document? t with
  | some v => ofJson v
  | none   => empty

end Analysis

end LogOrigin
