import LogOrigin.Callers.Listing
import LogOrigin.Proofs.Callers.Tree

-- The lines of a caller tree as a plain recursion over the tree. The ways to its nodes say in which
-- order they stand.

namespace LogOrigin

namespace CallerNode

variable {n : CallerNode} {l : List CallerNode} {i : Nat} {way : List Nat} {x : CallerInfo}

-- A node further down, seen from the parent.
def under (i : Nat) (e : List Nat × CallerInfo) : List Nat × CallerInfo :=
  (i :: e.1, e.2)

mutual

-- What all nodes of a tree say, with the ways to them: each node before its children, and these
-- from left to right with everything below them.
def preorder : CallerNode → List (List Nat × CallerInfo)
  | node x _ none     => [([], x)]
  | node x _ (some l) => ([], x) :: preorderAll 0 l

-- The same for a list of children, the first of which has the index `i`.
def preorderAll (i : Nat) : List CallerNode → List (List Nat × CallerInfo)
  | []     => []
  | n :: l => n.preorder.map (under i) ++ preorderAll (i + 1) l

end

theorem preorder_eq (n : CallerNode) :
    n.preorder = ([], n.info) :: preorderAll 0 (n.children.getD []) := by
  obtain ⟨x, _, _ | l⟩ := n
  all_goals rfl

theorem mem_preorderAll {e : List Nat × CallerInfo} : e ∈ preorderAll i l ↔
    ∃ k n, l[k]? = some n ∧ ∃ f ∈ n.preorder, e = under (i + k) f := by
  induction l generalizing i
  case nil         => simp [preorderAll]
  case cons n l hi =>
    rw [preorderAll, List.mem_append, List.mem_map, hi]
    constructor
    case mp  =>
      rintro (⟨f, hf, rfl⟩ | ⟨k, m, hk, f, hf, rfl⟩)
      case inl => exact ⟨0, n, rfl, f, hf, rfl⟩
      case inr => exact ⟨k + 1, m, hk, f, hf, by rw [Nat.add_right_comm, Nat.add_assoc]⟩
    case mpr =>
      rintro ⟨_ | k, m, hk, f, hf, rfl⟩
      case zero =>
        obtain rfl := Option.some.inj hk
        exact .inl ⟨f, hf, rfl⟩
      case succ => exact .inr ⟨k, m, hk, f, hf, by rw [Nat.add_right_comm, Nat.add_assoc]⟩

theorem mem_preorder_nil : ([], x) ∈ n.preorder ↔ n.info = x := by
  rw [preorder_eq, List.mem_cons, mem_preorderAll]
  constructor
  case mp  =>
    rintro (h | ⟨_, _, _, _, _, h⟩)
    all_goals cases h
    rfl
  case mpr => exact fun h => .inl <| h ▸ rfl

theorem mem_preorder_cons : (i :: way, x) ∈ n.preorder ↔
    ∃ kids k, n.children = some kids ∧ kids[i]? = some k ∧ (way, x) ∈ k.preorder := by
  rw [preorder_eq, List.mem_cons, mem_preorderAll]
  constructor
  case mp  =>
    rintro (h | ⟨j, k, hk, e, he, hu⟩)
    case inl => cases h
    obtain ⟨hij, rfl⟩ : i = j ∧ (way, x) = e := by simpa [under, Prod.ext_iff, and_assoc] using hu
    cases hc : n.children
    case none      => simp [hc] at hk
    case some kids => exact ⟨kids, k, rfl, by simpa [hc, hij] using hk, he⟩
  case mpr =>
    rintro ⟨kids, k, hc, hk, he⟩
    exact .inr ⟨i, k, by simp [hc, hk], (way, x), he, by rw [Nat.zero_add]; rfl⟩

-- All nodes are listed, and nothing else is.
theorem mem_preorder : (way, x) ∈ n.preorder ↔ ∃ m, n.descendant? way = some m ∧ m.info = x := by
  induction way generalizing n
  case nil           => simp [mem_preorder_nil, descendant?]
  case cons i way hi =>
    simp only [mem_preorder_cons, descendant?_cons_iff, hi]
    constructor
    case mp  =>
      rintro ⟨kids, k, hc, hk, m, hm, hx⟩
      exact ⟨m, ⟨kids, k, hc, hk, hm⟩, hx⟩
    case mpr =>
      rintro ⟨m, ⟨kids, k, hc, hk, hm⟩, hx⟩
      exact ⟨kids, k, hc, hk, m, hm, hx⟩

mutual

theorem sorted_preorder : (n : CallerNode) → n.preorder.Pairwise fun e f => e.1 < f.1
  | node _ _ none     => List.pairwise_singleton ..
  | node x _ (some l) => by
    refine List.pairwise_cons.mpr ⟨fun e he => ?_, sorted_preorderAll 0 l⟩
    obtain ⟨_, _, _, _, _, rfl⟩ := mem_preorderAll.mp he
    exact List.nil_lt_cons ..

theorem sorted_preorderAll (i : Nat) :
    (l : List CallerNode) → (preorderAll i l).Pairwise fun e f => e.1 < f.1
  | []     => .nil
  | n :: l => by
    refine List.pairwise_append.mpr ⟨?first, sorted_preorderAll (i + 1) l, ?between⟩
    case first =>
      refine List.pairwise_map.mpr <| (sorted_preorder n).imp fun h => ?_
      exact List.cons_lt_cons_iff.mpr <| .inr ⟨rfl, h⟩
    case between =>
      intro e he f hf
      obtain ⟨e, _, rfl⟩ := List.mem_map.mp he
      obtain ⟨k, _, _, f, _, rfl⟩ := mem_preorderAll.mp hf
      exact List.cons_lt_cons_iff.mpr <| .inl <| by omega

end

end CallerNode

namespace Listing

open CallerNode

-- The lines of a node at a distance from the root and of everything below it.
def linesFrom (dir : FilePath) (depth : Nat) (n : CallerNode) : List Text :=
  n.preorder.map fun e => line dir (depth + e.1.length) e.2

theorem map_preorderAll (dir : FilePath) (depth i : Nat) (l : List CallerNode) :
    (preorderAll i l).map (fun e => line dir (depth + e.1.length) e.2) =
      l.flatMap (linesFrom dir (depth + 1)) := by
  induction l generalizing i
  case nil         => rfl
  case cons n l hi =>
    have hl (e : List Nat × CallerInfo) :
        depth + (under i e).1.length = depth + 1 + e.1.length := by
      simp only [under, List.length_cons]
      omega
    rw [preorderAll, List.map_append, hi, List.map_map, List.flatMap_cons, linesFrom]
    simp only [Function.comp_def, hl]
    rfl

theorem linesFrom_eq (dir : FilePath) (depth : Nat) (n : CallerNode) : linesFrom dir depth n =
    line dir depth n.info :: (n.children.getD []).flatMap (linesFrom dir (depth + 1)) := by
  rw [linesFrom, preorder_eq, List.map_cons, map_preorderAll]
  rfl

-- Whatever waits on the stack gets its lines in one piece, with everything below it. The children
-- that take the place of a node stand before all the others.
theorem walk_eq (dir : FilePath) (stack : Stack) :
    walk dir stack = stack.flatMap fun e => linesFrom dir e.1 e.2 := by
  induction stack using walk.induct
  case case1                  => rw [walk, List.flatMap_nil]
  case case2 depth n stack hi =>
    rw [walk, hi, pushChildren, List.flatMap_append, List.flatMap_map, List.flatMap_cons,
      linesFrom_eq]
    rfl

theorem walk_children (dir : FilePath) (root : CallerNode) :
    walk dir (pushChildren 0 root []) =
      root.preorder.tail.map fun e => line dir e.1.length e.2 := by
  have hl := map_preorderAll dir 0 0 (root.children.getD [])
  rw [walk_eq, pushChildren, List.append_nil, List.flatMap_map, preorder_eq, List.tail_cons, ← hl]
  simp only [Nat.zero_add]

theorem line_indented (dir : FilePath) (depth : Nat) (x : CallerInfo) :
    line dir depth x = List.replicate (2 * depth) ' ' ++ line dir 0 x := by
  simp [line, indent]

theorem colon_mem_place (dir : FilePath) (x : CallerInfo) : ':' ∈ place dir x := by
  simp [place]

theorem colon_mem_line (dir : FilePath) (depth : Nat) (x : CallerInfo) :
    ':' ∈ line dir depth x := by
  simp [line, place]

-- The colon of a place tells a line from the note.
theorem ne_noCallers {t : Text} (h : ':' ∈ t) : t ≠ noCallers := by
  rintro rfl
  revert h
  decide

-- The walk with a stack is the recursion over the tree: after the root there is one line for every
-- other node, each node before its children and these from left to right, that is, in the
-- lexicographic order of the ways to them. Each line is indented by twice the distance from the
-- root. The note about missing callers is there if and only if it is known that there are none.
theorem lines_in_preorder (dir : FilePath) (root : CallerNode) :
    (root.children = some [] → lines dir root = [place dir root.info, noCallers]) ∧
    (root.children ≠ some [] → lines dir root = place dir root.info ::
      root.preorder.tail.map fun e => List.replicate (2 * e.1.length) ' ' ++ line dir 0 e.2) ∧
    (noCallers ∈ lines dir root ↔ root.children = some []) ∧
    root.preorder.head? = some ([], root.info) ∧
    (root.preorder.Pairwise fun e f => e.1 < f.1) ∧
    ∀ way x, (way, x) ∈ root.preorder ↔ ∃ m, root.descendant? way = some m ∧ m.info = x := by
  have head : root.preorder.head? = some ([], root.info) := by rw [preorder_eq, List.head?_cons]
  have empty (h : root.children = some []) : lines dir root = [place dir root.info, noCallers] := by
    simp [lines, isExpanded, walk_children, preorder_eq, preorderAll, h]
  have other (h : root.children ≠ some []) : lines dir root =
      place dir root.info :: root.preorder.tail.map fun e => line dir e.1.length e.2 := by
    have hn : ¬(root.isExpanded && (root.children.getD []).isEmpty) = true := by
      cases hc : root.children <;> simp_all [isExpanded]
    simp [lines, walk_children, hn]
  refine ⟨empty, ?lines, ?note, head, sorted_preorder root, fun _ _ => mem_preorder⟩
  case lines =>
    intro h
    simp only [other h, line_indented dir (List.length _)]
  case note  =>
    by_cases h : root.children = some []
    case pos => simp [empty h, h]
    case neg =>
      rw [other h, List.mem_cons]
      refine iff_of_false ?_ h
      rintro (hp | hl)
      case inl => exact ne_noCallers (colon_mem_place dir root.info) hp.symm
      case inr =>
        obtain ⟨e, _, he⟩ := List.mem_map.mp hl
        exact ne_noCallers (colon_mem_line ..) he

-- A root with two children, of which the first one has a child that has none, and a root without
-- callers.
theorem lines_in_preorder_branching :
    let dir : FilePath := ⟨['r']⟩
    let x (c : Char) : CallerInfo := ⟨⟨['r', '/', c]⟩, 0, [], [c], .one, []⟩
    let first : CallerNode := .node (x 'b') false (some [.node (x 'c') false (some [])])
    let root : CallerNode := .node (x 'a') false (some [first, .ofInfo (x 'd')])
    let bare : CallerNode := .node (x 'a') false (some [])
    root.children ≠ some [] ∧
    lines dir root = ["a:1".toList, "  b b:1  1.00  ".toList, "    c c:1  1.00  ".toList,
      "  d d:1  1.00  ".toList] ∧
    bare.children = some [] ∧
    lines dir bare = ["a:1".toList, "  (no callers found)".toList] := by
  intro dir x first root bare
  have hr : root.children ≠ some [] := nofun
  refine ⟨hr, ?_, rfl, ?_⟩
  · rw [(lines_in_preorder dir root).2.1 hr]
    decide +kernel
  · rw [(lines_in_preorder dir bare).1 rfl]
    decide +kernel

end Listing

end LogOrigin
