import LogOrigin.Callers.Cache

-- Callers with everything below them that the cache knows.

namespace LogOrigin

namespace Hydration

-- A node that waits for its children, with its depth and the places on the way to it.
structure Pending where
  info  : CallerInfo
  depth : Nat
  path  : List CallerKey

def Pending.key (p : Pending) : CallerKey :=
  ⟨p.info.file.components, p.info.line⟩

-- A node that is done, with the number of its children if it has been expanded.
structure Visit where
  info : CallerInfo
  kids : Option Nat
  deriving DecidableEq

-- The children of a node that are to be attached: those in the cache, unless the node is too deep or
-- its place stands on the way to it already.
def kids? (c : CallerCache) (bound : Nat) (p : Pending) : Option (List Pending) :=
  if bound ≤ p.depth || p.path.elem p.key then
    none
  else
    (c.get? p.key).map fun l => l.map fun n => ⟨n.info, p.depth + 1, p.path ++ [p.key]⟩

-- The greatest number of children in the cache.
def width (c : CallerCache) : Nat :=
  go c.slots
where
  go : List (CallerKey × CacheSlot) → Nat
    | []                 => 0
    | (_, .ready l) :: m => max l.length (go m)
    | (_, .loading) :: m => go m

theorem width.length_le_go {m : List (CallerKey × CacheSlot)} {k : CallerKey}
    {l : List CallerNode} (h : m.lookup k = some (.ready l)) : l.length ≤ width.go m := by
  induction m with
  | nil         => simp at h
  | cons e m hi =>
    obtain ⟨a, s⟩ := e
    rw [List.lookup_cons] at h
    cases hk : k == a <;> rw [hk] at h
    · have := hi h
      cases s <;> simp only [width.go] <;> omega
    · obtain rfl : s = .ready l := Option.some.inj h
      simp only [width.go]
      omega

theorem length_le_width {c : CallerCache} {k : CallerKey} {l : List CallerNode}
    (h : c.get? k = some l) : l.length ≤ width c := by
  simp only [CallerCache.get?, CallerCache.slot?] at h
  split at h
  · next hl => exact width.length_le_go (Option.some.inj h ▸ hl)
  · simp at h

-- More nodes than there can be in a tree with that many levels below its root.
def bulk (c : CallerCache) : Nat → Nat
  | 0     => 1
  | d + 1 => width c * bulk c d + bulk c d

theorem bulk_pos (c : CallerCache) (d : Nat) : 0 < bulk c d := by
  induction d with
  | zero      => exact Nat.one_pos
  | succ d hi => exact Nat.add_pos_right _ hi

-- More nodes than there can be below a pending one, itself included.
def weight (c : CallerCache) (bound : Nat) (p : Pending) : Nat :=
  bulk c (bound - p.depth)

def totalWeight (c : CallerCache) (bound : Nat) : List Pending → Nat
  | []         => 0
  | p :: queue => weight c bound p + totalWeight c bound queue

theorem weight_pos (c : CallerCache) (bound : Nat) (p : Pending) : 0 < weight c bound p :=
  bulk_pos ..

theorem totalWeight_append (c : CallerCache) (bound : Nat) (q r : List Pending) :
    totalWeight c bound (q ++ r) = totalWeight c bound q + totalWeight c bound r := by
  induction q with
  | nil         => simp [totalWeight]
  | cons p q hi => simp [totalWeight, hi, Nat.add_assoc]

theorem totalWeight_le {c : CallerCache} {bound n : Nat} {q : List Pending}
    (h : ∀ p ∈ q, weight c bound p ≤ n) : totalWeight c bound q ≤ q.length * n := by
  induction q with
  | nil         => simp [totalWeight]
  | cons p q hi =>
    have := hi fun p hp => h p (List.mem_cons_of_mem _ hp)
    have := h p (List.mem_cons_self ..)
    simp only [totalWeight, List.length_cons, Nat.succ_mul]
    omega

theorem totalWeight_kids_lt {c : CallerCache} {bound : Nat} {p : Pending} {l : List Pending}
    (h : kids? c bound p = some l) : totalWeight c bound l < weight c bound p := by
  simp only [kids?] at h
  split at h
  · simp at h
  · next hb =>
    simp only [Bool.or_eq_true, decide_eq_true_eq, not_or, Nat.not_le] at hb
    obtain ⟨m, hm, rfl⟩ := Option.map_eq_some_iff.1 h
    obtain ⟨d, hd⟩ := Nat.exists_eq_add_of_lt hb.1
    have he : bound - p.depth = d + 1 := by omega
    have hw : ∀ q ∈ m.map fun n => (⟨n.info, p.depth + 1, p.path ++ [p.key]⟩ : Pending),
        weight c bound q ≤ bulk c d := by
      intro q hq
      obtain ⟨n, _, rfl⟩ := List.mem_map.1 hq
      have : bound - (p.depth + 1) = d := by omega
      simp [weight, this]
    have hl := totalWeight_le hw
    simp only [List.length_map] at hl
    have hm := Nat.mul_le_mul_right (bulk c d) (length_le_width hm)
    have hd := bulk_pos c d
    rw [weight, he, bulk]
    omega

-- All nodes of the trees below a queue of pending ones, level by level.
def visits (c : CallerCache) (bound : Nat) : List Pending → List Visit
  | []         => []
  | p :: queue =>
    match _h : kids? c bound p with
    | none   => ⟨p.info, none⟩ :: visits c bound queue
    | some l => ⟨p.info, some l.length⟩ :: visits c bound (queue ++ l)
termination_by queue => totalWeight c bound queue
decreasing_by
  · have := weight_pos c bound p
    simp only [totalWeight]
    omega
  · have := totalWeight_kids_lt _h
    simp only [totalWeight, totalWeight_append]
    omega

-- The trees that a list of visits describes. Read from its end, the children of a node are the last
-- trees that have no parent yet.
def assemble (l : List Visit) : List CallerNode :=
  l.foldr attach []
where
  attach (v : Visit) (trees : List CallerNode) : List CallerNode :=
    match v.kids with
    | none   => .ofInfo v.info :: trees
    | some n =>
      .node v.info false (some (trees.drop (trees.length - n))) :: trees.take (trees.length - n)

def start (parent : CallerKey) (n : CallerNode) : Pending :=
  ⟨n.info, 1, [parent]⟩

-- The children of a place, each one expanded as far as the cache goes.
def hydrate (c : CallerCache) (bound : Nat) (parent : CallerKey) (children : List CallerNode) :
    List CallerNode :=
  assemble (visits c bound (children.map (start parent)))

end Hydration

end LogOrigin
