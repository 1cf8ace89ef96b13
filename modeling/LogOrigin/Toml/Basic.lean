import LogOrigin.Text.KeyMap

-- TOML documents as nested tables, and the rules on which tables may be extended.

namespace LogOrigin

-- How a table has come about. Headers name explicit tables and imply the tables above them; dotted
-- keys make tables of their own; inline tables are complete where they stand.
inductive TableKind where
  | implicit
  | explicit
  | dotted
  | inline
  deriving DecidableEq

inductive Toml where
  | string (t : Text)
  | integer (n : Int)
  | float
  -- A number that is too large, or that is written with digits it cannot have.
  | unreadable
  | boolean (b : Bool)
  | datetime
  | array (items : List Toml)
  | tables (items : List (List (Text × Toml)))
  | table (kind : TableKind) (entries : List (Text × Toml))

namespace Toml

abbrev Entries := List (Text × Toml)

-- Whether a value can be read to its end. A document may hold numbers that nothing can be made of,
-- as long as nobody looks at them.
mutual

def isReadable : Toml → Bool
  | unreadable => false
  | array l    => areReadable l
  | tables l   => tablesReadable l
  | table _ m  => entriesReadable m
  | _          => true

def areReadable : List Toml → Bool
  | []     => true
  | v :: l => isReadable v && areReadable l

def entriesReadable : List (Text × Toml) → Bool
  | []          => true
  | (_, v) :: m => isReadable v && entriesReadable m

def tablesReadable : List (List (Text × Toml)) → Bool
  | []     => true
  | m :: l => entriesReadable m && tablesReadable l

end

-- Changes the last table of an array of tables.
def onLast (f : Entries → Option Entries) (items : List (List (Text × Toml))) :
    Option (List (List (Text × Toml))) :=
  match items.getLast? with
  | some m => (f m).map fun m => items.dropLast ++ [m]
  | none   => none

-- Follows the keys before the last one of a dotted key.
def descendDotted : List Text → (Bool → Entries → Option Entries) → Bool → Entries → Option Entries
  | [], f, isDotted, m     => f isDotted m
  | k :: p, f, _, m =>
    let put := fun v => KeyMap.insert k v m
    match KeyMap.get? k m with
    | none                      => (descendDotted p f true []).map fun n => put (table .dotted n)
    | some (table .dotted n)    => (descendDotted p f true n).map fun n => put (table .dotted n)
    | some (table .implicit n)  => (descendDotted p f false n).map fun n => put (table .implicit n)
    | some (tables l)           => (onLast (descendDotted p f false) l).map fun l => put (tables l)
    | some _                    => none

-- Adds a value under a dotted key. No value may be there yet, and a table that the key goes into
-- must come from dotted keys itself.
def addKey (path : List Text) (k : Text) (v : Toml) (m : Entries) : Option Entries :=
  descendDotted path (fun isDotted m =>
    if isDotted == path.isEmpty || (KeyMap.get? k m).isSome then none
    else some (KeyMap.insert k v m)) false m

-- Follows the keys of a header; missing tables are implied.
def descendHeader : List Text → (Entries → Option Entries) → Entries → Option Entries
  | [], f, m     => f m
  | k :: p, f, m =>
    let put := fun v => KeyMap.insert k v m
    match KeyMap.get? k m with
    | none                   => (descendHeader p f []).map fun n => put (table .implicit n)
    | some (table .inline _) => none
    | some (table kind n)    => (descendHeader p f n).map fun n => put (table kind n)
    | some (tables l)        => (onLast (descendHeader p f) l).map fun l => put (tables l)
    | some _                 => none

-- Opens the table that a header names. It may have been implied before, but not be there itself.
def openTable (path : List Text) (k : Text) (m : Entries) : Option Entries :=
  descendHeader path (fun m =>
    match KeyMap.get? k m with
    | none                     => some (KeyMap.insert k (table .explicit []) m)
    | some (table .implicit n) => some (KeyMap.insert k (table .explicit n) m)
    | some _                   => none) m

-- Opens a new table at the end of an array of tables.
def openItem (path : List Text) (k : Text) (m : Entries) : Option Entries :=
  descendHeader path (fun m =>
    match KeyMap.get? k m with
    | none            => some (KeyMap.insert k (tables [[]]) m)
    | some (tables l) => some (KeyMap.insert k (tables (l ++ [[]])) m)
    | some _          => none) m

end Toml

end LogOrigin
