import LogOrigin.Callers.Node
import LogOrigin.Number.Shortest

-- Caller trees as lines of text: the root, and below it all other nodes from top to bottom, indented
-- by their distance from the root.

namespace LogOrigin

open Text

namespace CallerNode

mutual

-- The number of nodes of a tree.
def count : CallerNode → Nat
  | node _ _ none     => 1
  | node _ _ (some l) => countAll l + 1

def countAll : List CallerNode → Nat
  | []     => 0
  | n :: l => n.count + countAll l

end

theorem countAll_append (l m : List CallerNode) : countAll (l ++ m) = countAll l + countAll m := by
  induction l with
  | nil         => simp [countAll]
  | cons n l hi => simp [countAll, hi, Nat.add_assoc]

theorem count_eq (n : CallerNode) : n.count = countAll (n.children.getD []) + 1 := by
  obtain ⟨_, _, _ | _⟩ := n <;> simp [count, children, countAll]

end CallerNode

namespace Listing

-- A path as it is shown: relative to a directory if it lies in it.
def shown (dir file : FilePath) : Text :=
  ((file.stripBase? dir).getD file).text

def place (dir : FilePath) (i : CallerInfo) : Text :=
  shown dir i.file ++ ':' :: ofNat (i.line + 1)

def indent (depth : Nat) : Text :=
  List.replicate (2 * depth) ' '

def topLevel : Text := "<top level>".toList

def line (dir : FilePath) (depth : Nat) (i : CallerInfo) : Text :=
  let name := if i.function.isEmpty then topLevel else i.function
  indent depth ++ name ++ ' ' :: place dir i ++ "  ".toList ++ i.confidence.renderFixed 2 ++
    "  ".toList ++ i.explanation

-- Nodes that wait for their lines, with their distances from the root.
abbrev Stack := List (Nat × CallerNode)

def pushChildren (depth : Nat) (n : CallerNode) (stack : Stack) : Stack :=
  (n.children.getD []).map (fun c => (depth + 1, c)) ++ stack

def size (stack : Stack) : Nat :=
  CallerNode.countAll (stack.map (·.2))

theorem size_pushChildren (depth : Nat) (n : CallerNode) (stack : Stack) :
    size (pushChildren depth n stack) + 1 = size ((depth, n) :: stack) := by
  have := n.count_eq
  simp only [size, pushChildren, List.map_append, List.map_map, CallerNode.countAll_append,
    List.map_cons, CallerNode.countAll]
  rw [show (n.children.getD []).map ((·.2) ∘ fun c => (depth + 1, c)) = n.children.getD [] by
    simp [Function.comp_def]]
  omega

-- The lines of the nodes on a stack and of all nodes below them.
def walk (dir : FilePath) : Stack → List Text
  | []                  => []
  | (depth, n) :: stack => line dir depth n.info :: walk dir (pushChildren depth n stack)
termination_by stack => size stack
decreasing_by
  have := size_pushChildren depth n stack
  omega

def noCallers : Text := "  (no callers found)".toList

def lines (dir : FilePath) (root : CallerNode) : List Text :=
  [place dir root.info] ++
  (if root.isExpanded && (root.children.getD []).isEmpty then [noCallers] else []) ++
  walk dir (pushChildren 0 root [])

end Listing

end LogOrigin
