import LogOrigin.Session

-- The expansion of a caller tree level by level.

namespace LogOrigin

namespace Session

variable {σ : Type}

-- The ways to the children of the node at the end of a way in the tree of a record.
def childWays (r : Record) (way : List Nat) : List (List Nat) :=
  let children := ((r.callers.bind (·.descendant? way)).bind (·.children)).getD []
  (List.range children.length).map fun i => way ++ [i]

def expandAll (fs : Files) (id : Nat) :
    List (List Nat) → Session σ → Except Failure Unit × Session σ
  | [], s       => (.ok (), s)
  | way :: l, s =>
    match s.expand fs id way with
    | (.error e, s) => (.error e, s)
    | (.ok _, s)    => expandAll fs id l s

-- Expands the children of all nodes of a level and gives the ways to them.
def expandLevel (fs : Files) (id : Nat) :
    List (List Nat) → Session σ → Except Failure (List (List Nat)) × Session σ
  | [], s       => (.ok [], s)
  | way :: l, s =>
    match s.store.get id with
    | .error e => (.error e, s)
    | .ok r    =>
      let ways := childWays r way
      match expandAll fs id ways s with
      | (.error e, s) => (.error e, s)
      | (.ok _, s)    =>
        match expandLevel fs id l s with
        | (.error e, s)  => (.error e, s)
        | (.ok below, s) => (.ok (ways ++ below), s)

-- Goes on for a number of levels, as long as there are nodes.
def expandLevels (fs : Files) (id : Nat) :
    Nat → List (List Nat) → Session σ → Except Failure Unit × Session σ
  | 0, _, s         => (.ok (), s)
  | n + 1, level, s =>
    if level.isEmpty then
      (.ok (), s)
    else
      match expandLevel fs id level s with
      | (.error e, s)  => (.error e, s)
      | (.ok below, s) => expandLevels fs id n below s

-- Expands the tree of a record, whose root is expanded, to a depth.
def expandToDepth (s : Session σ) (fs : Files) (id depth : Nat) :
    Except Failure Unit × Session σ :=
  expandLevels fs id (depth - 1) [[]] s

end Session

end LogOrigin
