import LogOrigin.Callers.Hydration
import LogOrigin.Callers.Listing
import LogOrigin.Proofs.Cache.Operations
import Mathlib.Algebra.Group.Nat.Defs
import Mathlib.Data.List.Nodup

-- Hydration as a plain recursion. The places of the expanded nodes on a way down a tree are all
-- different, so that there are only finitely many of them, however deep a tree may be and even if
-- places call themselves.

namespace LogOrigin

namespace CallerNode

-- The nodes on a way of child indices, as far as it leads, with the node at its start.
def along : List Nat → CallerNode → List CallerNode
  | [], n     => [n]
  | i :: p, n =>
    match n.children.bind (·[i]?) with
    | none   => [n]
    | some m => n :: along p m

-- The places of the nodes on a way that have been expanded.
def expandedKeys (way : List Nat) (n : CallerNode) : List CallerKey :=
  ((n.along way).filter (·.isExpanded)).map (·.key)

theorem expandedKeys_none {n : CallerNode} (h : n.children = none) (way : List Nat) :
    n.expandedKeys way = [] := by
  cases way <;> simp [expandedKeys, along, isExpanded, h]

theorem expandedKeys_nil {n : CallerNode} {l : List CallerNode} (h : n.children = some l) :
    n.expandedKeys [] = [n.key] := by
  simp [expandedKeys, along, isExpanded, h]

theorem expandedKeys_cons {n : CallerNode} {l : List CallerNode} (h : n.children = some l)
    (i : Nat) (way : List Nat) :
    n.expandedKeys (i :: way) = n.key :: ((l[i]?).map (expandedKeys way)).getD [] := by
  cases hi : l[i]? <;> simp [expandedKeys, along, isExpanded, h, hi]

@[simp]
theorem info_shallow (n : CallerNode) : n.shallow.info = n.info :=
  rfl

@[simp]
theorem count_shallow (n : CallerNode) : n.shallow.count = 1 := by
  simp [shallow, ofInfo, count]

@[simp]
theorem children_shallow (n : CallerNode) : n.shallow.children = none :=
  rfl

end CallerNode

namespace Hydration

variable {c : CallerCache} {bound depth : Nat} {path : List CallerKey} {n : CallerNode}

-- A node with everything below it that the cache knows, up to a depth and without the places that
-- stand on the way to it.
def expanded (c : CallerCache) (bound depth : Nat) (path : List CallerKey) (n : CallerNode) :
    CallerNode :=
  if _h : bound ≤ depth ∨ n.key ∈ path then
    n.shallow
  else
    match c.get? n.key with
    | none   => n.shallow
    | some l => .node n.info false <|
      some <| l.map fun m => expanded c bound (depth + 1) (path ++ [n.key]) m
termination_by bound - depth

theorem expanded_leaf (h : bound ≤ depth ∨ n.key ∈ path ∨ c.get? n.key = none) :
    expanded c bound depth path n = n.shallow := by
  rw [expanded]
  split
  case isTrue    => rfl
  case isFalse h' => simp [(h.resolve_left (h' <| .inl ·)).resolve_left (h' <| .inr ·)]

theorem expanded_inner {l : List CallerNode} (hd : depth < bound) (hp : n.key ∉ path)
    (hl : c.get? n.key = some l) :
    expanded c bound depth path n =
      .node n.info false (some (l.map (expanded c bound (depth + 1) (path ++ [n.key])))) := by
  rw [expanded]
  simp [hp, hl, Nat.not_le.mpr hd]

-- All that can become of a node.
theorem expanded_cases (c : CallerCache) (bound depth : Nat) (path : List CallerKey)
    (n : CallerNode) :
    (expanded c bound depth path n = n.shallow) ∨
    (∃ l, depth < bound ∧ n.key ∉ path ∧ c.get? n.key = some l ∧
      expanded c bound depth path n =
        .node n.info false (some (l.map (expanded c bound (depth + 1) (path ++ [n.key]))))) := by
  by_cases h : bound ≤ depth ∨ n.key ∈ path
  case pos => exact .inl <| expanded_leaf <| h.imp_right .inl
  case neg =>
    have ⟨hd, hp⟩ := not_or.mp h
    cases hl : c.get? n.key
    case none   => exact .inl <| expanded_leaf <| .inr <| .inr hl
    case some l =>
      have hd := Nat.not_le.mp hd
      exact .inr ⟨l, hd, hp, rfl, expanded_inner hd hp hl⟩

@[simp]
theorem info_expanded (c : CallerCache) (bound depth : Nat) (path : List CallerKey)
    (n : CallerNode) : (expanded c bound depth path n).info = n.info := by
  cases expanded_cases c bound depth path n
  case inl h => simp [h]
  case inr h =>
    have ⟨_, _, _, _, h⟩ := h
    rw [h]
    rfl

@[simp]
theorem key_expanded (c : CallerCache) (bound depth : Nat) (path : List CallerKey)
    (n : CallerNode) : (expanded c bound depth path n).key = n.key := by
  simp [CallerNode.key]

-- The tree that a pending node stands for.
def Pending.tree (c : CallerCache) (bound : Nat) (p : Pending) : CallerNode :=
  expanded c bound p.depth p.path (.ofInfo p.info)

theorem Pending.tree_mk (c : CallerCache) (bound depth : Nat) (path : List CallerKey)
    (n : CallerNode) : tree c bound ⟨n.info, depth, path⟩ = expanded c bound depth path n := by
  rw [tree, expanded, expanded]
  rfl

theorem kids?_none {p : Pending} (h : kids? c bound p = none) :
    p.tree c bound = .ofInfo p.info := by
  apply expanded_leaf
  unfold kids? at h
  split at h
  case isTrue hb =>
    simp only [Bool.or_eq_true, decide_eq_true_eq, List.elem_eq_mem] at hb
    exact hb.imp_right .inl
  case isFalse => exact .inr <| .inr <| Option.map_eq_none_iff.mp h

theorem kids?_some {p : Pending} {q : List Pending} (h : kids? c bound p = some q) :
    p.tree c bound = .node p.info false (some (q.map (Pending.tree c bound))) := by
  unfold kids? at h
  split at h
  case isTrue => cases h
  case isFalse hb =>
    simp only [Bool.or_eq_true, decide_eq_true_eq, List.elem_eq_mem, not_or, Nat.not_le] at hb
    obtain ⟨l, hl, rfl⟩ := Option.map_eq_some_iff.mp h
    have he := expanded_inner (n := .ofInfo p.info) hb.left hb.right hl
    rw [Pending.tree, he]
    simp only [List.map_map, Function.comp_def, Pending.tree_mk]
    rfl

-- Of the trees at hand when a node is reached, the last ones are its children, and those before
-- them belong to the rest of the queue.
theorem attach_append (i : CallerInfo) (rest kids : List CallerNode) :
    assemble.attach ⟨i, some kids.length⟩ (rest ++ kids) = .node i false (some kids) :: rest := by
  simp [assemble.attach]

theorem visits_none {p : Pending} (h : kids? c bound p = none) (queue : List Pending) :
    visits c bound (p :: queue) = ⟨p.info, none⟩ :: visits c bound queue := by
  rw [visits]
  split
  case h_1     => rfl
  case h_2 h'  => cases h.symm.trans h'

theorem visits_some {p : Pending} {q : List Pending} (h : kids? c bound p = some q)
    (queue : List Pending) :
    visits c bound (p :: queue) = ⟨p.info, some q.length⟩ :: visits c bound (queue ++ q) := by
  rw [visits]
  split
  case h_1 h' => cases h.symm.trans h'
  case h_2 h' => cases h.symm.trans h'; rfl

-- The work list agrees with the recursion, whatever else is still waiting in it.
theorem assemble_visits (c : CallerCache) (bound : Nat) (queue : List Pending) :
    assemble (visits c bound queue) = queue.map (Pending.tree c bound) := by
  induction queue using visits.induct c bound
  case case1 => simp [visits, assemble]
  case case2 p queue h hi =>
    rw [visits_none h, List.map_cons, kids?_none h, ← hi]
    rfl
  case case3 p queue q h hi =>
    have ha := attach_append p.info (queue.map (Pending.tree c bound))
      (q.map (Pending.tree c bound))
    rw [visits_some h, List.map_cons, kids?_some h, ← ha, ← List.map_append, ← hi, List.length_map]
    rfl

theorem hydrate_eq_map (c : CallerCache) (bound : Nat) (parent : CallerKey)
    (children : List CallerNode) :
    hydrate c bound parent children = children.map (expanded c bound 1 [parent]) := by
  simp [hydrate, assemble_visits, start, Pending.tree_mk]

-- Every visit leaves one node behind.
theorem countAll_assemble (l : List Visit) : CallerNode.countAll (assemble l) = l.length := by
  induction l
  case nil => rfl
  case cons v l hi =>
    have ha : assemble (v :: l) = assemble.attach v (assemble l) := rfl
    rw [ha, List.length_cons, ← hi]
    obtain ⟨i, kids⟩ := v
    cases kids
    case none => simp [assemble.attach, CallerNode.countAll, CallerNode.count, CallerNode.ofInfo,
      Nat.add_comm]
    case some k =>
      generalize assemble l = trees
      have := CallerNode.countAll_append (trees.take (trees.length - k))
        (trees.drop (trees.length - k))
      rw [List.take_append_drop] at this
      simp only [assemble.attach, CallerNode.countAll, CallerNode.count]
      omega

-- Places that are known and do not stand on a way yet.
def isFresh (path : List CallerKey) (e : CallerKey × CacheSlot) : Bool :=
  CallerCache.isReady e.2 && !path.elem e.1

def fresh (c : CallerCache) (path : List CallerKey) : Nat :=
  (c.slots.filter (isFresh path)).length

theorem fresh_le_size (c : CallerCache) (path : List CallerKey) : fresh c path ≤ c.size := by
  rw [fresh, ← List.countP_eq_length_filter]
  apply List.countP_mono_left
  intro e _ h
  exact (Bool.and_eq_true_iff.mp h).left

theorem fresh_lt {k : CallerKey} {l : List CallerNode} (hp : k ∉ path) (hl : c.get? k = some l) :
    fresh c (path ++ [k]) < fresh c path := by
  have hf : c.slots.filter (isFresh (path ++ [k])) =
      (c.slots.filter (isFresh path)).filter (·.1 != k) := by
    rw [List.filter_filter]
    congr 1
    funext e
    by_cases he : e.1 = k <;> simp [isFresh, he]
  have hm : (k, .ready l) ∈ c.slots := by
    have ⟨m₁, m₂, hm, _⟩ := List.lookup_eq_some_iff.mp <| CallerCache.get?_eq_some_iff.mp hl
    simp [hm]
  have hm := List.mem_filter.mpr ⟨hm, show isFresh path (k, .ready l) by
    simp [isFresh, CallerCache.isReady, hp]⟩
  rw [fresh, hf, fresh]
  exact List.length_filter_lt_length_iff_exists.mpr ⟨_, hm, by simp⟩

theorem countAll_le {m : Nat} {l : List CallerNode} (h : ∀ n ∈ l, n.count ≤ m) :
    CallerNode.countAll l ≤ l.length * m := by
  induction l
  case nil => simp [CallerNode.countAll]
  case cons n l hi =>
    have h₁ := hi fun n hn => h n <| List.mem_cons_of_mem _ hn
    have h₂ := h n <| List.mem_cons_self ..
    simp only [CallerNode.countAll, List.length_cons, Nat.succ_mul]
    omega

-- The size of a tree is bounded by the cache alone: each level uses up a place.
theorem count_expanded_le {m : Nat} (h : fresh c path ≤ m) :
    (expanded c bound depth path n).count ≤ (width c + 1) ^ m := by
  induction m generalizing depth path n
  case zero =>
    cases expanded_cases c bound depth path n
    case inl he => simp [he]
    case inr he =>
      have ⟨l, _, hp, hl, _⟩ := he
      have := fresh_lt hp hl
      omega
  case succ m hi =>
    have h₁ : 1 ≤ (width c + 1) ^ m := Nat.one_le_pow _ _ <| Nat.succ_pos _
    cases expanded_cases c bound depth path n
    case inl he =>
      simpa [he] using Nat.one_le_pow (m + 1) (width c + 1) <| Nat.succ_pos _
    case inr he =>
      have ⟨l, _, hp, hl, he⟩ := he
      have hf := fresh_lt hp hl
      have hk : ∀ k ∈ l.map (expanded c bound (depth + 1) (path ++ [n.key])),
          k.count ≤ (width c + 1) ^ m := by
        intro k hk
        obtain ⟨k', _, rfl⟩ := List.mem_map.mp hk
        exact hi <| by omega
      have hk := countAll_le hk
      have hw := Nat.mul_le_mul_right ((width c + 1) ^ m) <| length_le_width hl
      rw [List.length_map] at hk
      rw [he, CallerNode.count, Nat.pow_succ, Nat.mul_comm, Nat.succ_mul]
      omega

-- However deep hydration may go, the work list runs dry after that many nodes.
theorem length_visits_le (c : CallerCache) (bound : Nat) (parent : CallerKey)
    (children : List CallerNode) :
    (visits c bound (children.map (start parent))).length ≤
      children.length * (width c + 1) ^ c.size := by
  rw [← countAll_assemble]
  have hm := hydrate_eq_map c bound parent children
  rw [hydrate] at hm
  have hc := countAll_le (l := children.map (expanded c bound 1 [parent])) <| by
    intro n hn
    obtain ⟨n', _, rfl⟩ := List.mem_map.mp hn
    exact count_expanded_le <| fresh_le_size c [parent]
  rwa [hm, ← List.length_map (expanded c bound 1 [parent])]

theorem children_expanded {kids : List CallerNode}
    (h : (expanded c bound depth path n).children = some kids) :
    n.key ∉ path ∧ ∃ l, c.get? n.key = some l ∧
      kids = l.map (expanded c bound (depth + 1) (path ++ [n.key])) := by
  cases expanded_cases c bound depth path n
  case inl he => simp [he] at h
  case inr he =>
    have ⟨l, _, hp, hl, he⟩ := he
    rw [he] at h
    exact ⟨hp, l, hl, (Option.some.inj h).symm⟩

-- No place is expanded again below itself.
theorem nodup_expandedKeys (way : List Nat) (hp : path.Nodup) :
    (path ++ (expanded c bound depth path n).expandedKeys way).Nodup := by
  induction way generalizing depth path n
  all_goals
    cases hc : (expanded c bound depth path n).children
    case none => simpa [CallerNode.expandedKeys_none hc] using hp
  case nil.some kids =>
    have ⟨hk, _⟩ := children_expanded hc
    rw [CallerNode.expandedKeys_nil hc, key_expanded]
    exact List.concat_eq_append ▸ hp.concat hk
  case cons.some i way hi kids =>
    have ⟨hk, l, _, hl⟩ := children_expanded hc
    have hn := List.concat_eq_append ▸ hp.concat hk
    rw [CallerNode.expandedKeys_cons hc, key_expanded, List.append_cons]
    cases hm : l[i]?
    case none   => simpa [hl, hm] using hn
    case some m => simpa [hl, hm] using hi hn

-- The children of a node are those in the cache, each one once and in their order.
theorem infos_of_descendant? {way : List Nat} {m : CallerNode} {kids : List CallerNode}
    (hm : (expanded c bound depth path n).descendant? way = some m)
    (hk : m.children = some kids) :
    ∃ l, c.get? m.key = some l ∧ kids.map (·.info) = l.map (·.info) := by
  induction way generalizing depth path n
  case nil =>
    obtain rfl := Option.some.inj hm
    obtain ⟨_, l, hl, rfl⟩ := children_expanded hk
    exact ⟨l, by rw [key_expanded, hl], by simp [Function.comp_def]⟩
  case cons i way hi =>
    have ⟨m', hm', hm⟩ := Option.bind_eq_some_iff.mp hm
    have ⟨kids', hc, hm'⟩ := Option.bind_eq_some_iff.mp hm'
    obtain ⟨_, l, _, rfl⟩ := children_expanded hc
    obtain ⟨n', _, rfl⟩ := List.mem_map.mp <| List.mem_of_getElem? hm'
    exact hi hm

-- The work list gives every child the tree that the recursion gives it, after a number of steps
-- that the cache bounds, whatever the depth. The places that are expanded on a way down are all
-- different, and no child is lost, repeated or moved.
theorem hydrate_as_recursion (c : CallerCache) (bound : Nat) (parent : CallerKey)
    (children : List CallerNode) :
    (hydrate c bound parent children = children.map (expanded c bound 1 [parent])) ∧
    ((visits c bound (children.map (start parent))).length ≤
      children.length * (width c + 1) ^ c.size) ∧
    (∀ n ∈ hydrate c bound parent children, ∀ way, (parent :: n.expandedKeys way).Nodup) ∧
    ((hydrate c bound parent children).map (·.info) = children.map (·.info)) ∧
    (∀ n ∈ hydrate c bound parent children, ∀ way m kids, n.descendant? way = some m →
      m.children = some kids →
      ∃ l, c.get? m.key = some l ∧ kids.map (·.info) = l.map (·.info)) := by
  have he := hydrate_eq_map c bound parent children
  refine ⟨he, length_visits_le .., ?distinct, ?infos, ?kids⟩
  all_goals rw [he]
  case distinct =>
    intro n hn way
    obtain ⟨n', _, rfl⟩ := List.mem_map.mp hn
    exact nodup_expandedKeys way <| List.nodup_singleton parent
  case infos => simp [Function.comp_def]
  case kids =>
    intro n hn way m kids hm hk
    obtain ⟨n', _, rfl⟩ := List.mem_map.mp hn
    exact infos_of_descendant? hm hk

-- A place that calls itself, directly and from another one.
theorem hydrate_as_recursion_cyclic :
    let bound := 1000000000
    let p : CallerKey := ⟨[.name ['c']], 0⟩
    let m : CallerNode := .root ⟨['a']⟩ 1
    let n : CallerNode := .root ⟨['b']⟩ 2
    let c := (CallerCache.empty.set m.key (.ready [m, n])).set n.key (.ready [m])
    hydrate c bound p [m] = [.node m.info false (some [m, .node n.info false (some [m])])] := by
  intro bound p m n c
  have hm : expanded c bound 1 [p] m =
      .node m.info false (some ([m, n].map (expanded c bound 2 [p, m.key]))) :=
    expanded_inner (by decide) (by decide) rfl
  have hn : expanded c bound 2 [p, m.key] n =
      .node n.info false (some ([m].map (expanded c bound 3 [p, m.key, n.key]))) :=
    expanded_inner (by decide) (by decide) rfl
  have h₂ : expanded c bound 2 [p, m.key] m = m := expanded_leaf <| .inr <| .inl <| by decide
  have h₃ : expanded c bound 3 [p, m.key, n.key] m = m := expanded_leaf <| .inr <| .inl <| by decide
  have h := (hydrate_as_recursion c bound p [m]).left
  simpa [hm, hn, h₂, h₃] using h

end Hydration

end LogOrigin
