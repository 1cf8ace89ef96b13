import LogOrigin.FilePath
import LogOrigin.Number.Binary64

-- Caller trees. A node without a list of children has not been expanded yet; one with an empty list
-- has, and has no callers.

namespace LogOrigin

-- What a tree says about one place in the source.
structure CallerInfo where
  file        : FilePath
  line        : Nat
  snippet     : Text
  function    : Text
  confidence  : Binary64
  explanation : Text
  deriving DecidableEq

inductive CallerNode where
  | node (info : CallerInfo) (loading : Bool) (children : Option (List CallerNode))

-- Places are the same if their lines are and their files have the same components.
structure CallerKey where
  file : List FilePath.Component
  line : Nat
  deriving DecidableEq

namespace CallerNode

def info : CallerNode → CallerInfo
  | node i _ _ => i

def loading : CallerNode → Bool
  | node _ l _ => l

def children : CallerNode → Option (List CallerNode)
  | node _ _ c => c

def ofInfo (i : CallerInfo) : CallerNode :=
  node i false none

-- The root of a tree at a place.
def root (file : FilePath) (line : Nat) : CallerNode :=
  ofInfo ⟨file, line, [], [], .one, []⟩

def key (n : CallerNode) : CallerKey :=
  ⟨n.info.file.components, n.info.line⟩

def isExpanded (n : CallerNode) : Bool :=
  n.children.isSome

-- The node without children, as it is kept in the cache.
def shallow (n : CallerNode) : CallerNode :=
  ofInfo n.info

def withChildren (n : CallerNode) (c : Option (List CallerNode)) : CallerNode :=
  node n.info n.loading c

-- The node at the end of a way of child indices.
def descendant? : List Nat → CallerNode → Option CallerNode
  | [], n     => some n
  | i :: p, n => (n.children.bind (·[i]?)).bind (descendant? p)

-- Replaces the node at the end of a way, if there is one.
def replaceAt : CallerNode → List Nat → CallerNode → CallerNode
  | _, [], new     => new
  | n, i :: p, new =>
    match n.children with
    | none   => n
    | some l =>
      match l[i]? with
      | none   => n
      | some c => n.withChildren (some (l.set i (c.replaceAt p new)))

mutual

-- Trees are the same if they agree in shape and everywhere up to the spelling of paths.
def same : CallerNode → CallerNode → Bool
  | node i l c, node j m d =>
    i.file.same j.file && i.line == j.line && i.snippet == j.snippet && i.function == j.function &&
    i.confidence.valueKey == j.confidence.valueKey && !i.confidence.isNaN && !j.confidence.isNaN &&
    i.explanation == j.explanation && l == m && sameChildren c d

def sameChildren : Option (List CallerNode) → Option (List CallerNode) → Bool
  | none, none       => true
  | some c, some d   => sameAll c d
  | _, _             => false

def sameAll : List CallerNode → List CallerNode → Bool
  | [], []           => true
  | m :: c, n :: d   => same m n && sameAll c d
  | _, _             => false

end

end CallerNode

end LogOrigin
