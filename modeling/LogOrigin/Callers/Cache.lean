import LogOrigin.Callers.Node

-- The callers that are known for places in the source. A place is loaded by one client at a time,
-- who holds a guard for it until the load is complete or given up.

namespace LogOrigin

inductive CacheSlot where
  | loading
  | ready (children : List CallerNode)

-- Each clearing starts a new epoch. A guard from an older epoch no longer owns its place.
structure CallerCache where
  slots : List (CallerKey × CacheSlot)
  epoch : Nat

-- The right to load a place.
structure LoadGuard where
  key   : CallerKey
  epoch : Nat
  deriving DecidableEq

-- The answer to a client who needs the callers of a place.
inductive Claim where
  | ready (children : List CallerNode)
  | owner (guard : LoadGuard)
  | busy

namespace CallerCache

def empty : CallerCache := ⟨[], 0⟩

def slot? (c : CallerCache) (k : CallerKey) : Option CacheSlot :=
  c.slots.lookup k

def without (k : CallerKey) (l : List (CallerKey × CacheSlot)) : List (CallerKey × CacheSlot) :=
  l.filter (·.1 != k)

def set (c : CallerCache) (k : CallerKey) (s : CacheSlot) : CallerCache :=
  { c with slots := (k, s) :: without k c.slots }

def remove (c : CallerCache) (k : CallerKey) : CallerCache :=
  { c with slots := without k c.slots }

theorem lookup_without_ne {k l : CallerKey} (h : l ≠ k) (m : List (CallerKey × CacheSlot)) :
    (without k m).lookup l = m.lookup l := by
  induction m with
  | nil         => rfl
  | cons e m hi =>
    obtain ⟨a, s⟩ := e
    unfold without at *
    by_cases he : a = k
    · have : (l == a) = false := by simp [he, h]
      simp only [List.lookup_cons, this, ← hi]
      simp [he]
    · have : (a != k) = true := by simpa using he
      simp only [List.filter_cons, this, if_true, List.lookup_cons, hi]

theorem lookup_without_self (k : CallerKey) (m : List (CallerKey × CacheSlot)) :
    (without k m).lookup k = none := by
  induction m with
  | nil         => rfl
  | cons e m hi =>
    obtain ⟨a, s⟩ := e
    unfold without at *
    by_cases he : a = k
    · simpa [he] using hi
    · have h₁ : (a != k) = true := by simpa using he
      have h₂ : (k == a) = false := by simpa using Ne.symm he
      simp only [List.filter_cons, h₁, if_true, List.lookup_cons, h₂, hi]

@[simp]
theorem slot?_set_self (c : CallerCache) (k : CallerKey) (s : CacheSlot) :
    (c.set k s).slot? k = some s := by
  simp [slot?, set]

theorem slot?_set_ne {k l : CallerKey} (h : l ≠ k) (c : CallerCache) (s : CacheSlot) :
    (c.set k s).slot? l = c.slot? l := by
  have : (l == k) = false := by simpa using h
  simp [slot?, set, List.lookup_cons, this, lookup_without_ne h]

@[simp]
theorem slot?_remove_self (c : CallerCache) (k : CallerKey) : (c.remove k).slot? k = none := by
  simp [slot?, remove, lookup_without_self]

theorem slot?_remove_ne {k l : CallerKey} (h : l ≠ k) (c : CallerCache) :
    (c.remove k).slot? l = c.slot? l := by
  simp [slot?, remove, lookup_without_ne h]

-- The callers of a place, unless they are still being loaded.
def get? (c : CallerCache) (k : CallerKey) : Option (List CallerNode) :=
  match c.slot? k with
  | some (.ready l) => some l
  | _               => none

-- The callers of a place, or the right to load them if nobody else has it.
def claim (c : CallerCache) (k : CallerKey) : Claim × CallerCache :=
  match c.slot? k with
  | some (.ready l) => (.ready l, c)
  | some .loading   => (.busy, c)
  | none            => (.owner ⟨k, c.epoch⟩, c.set k .loading)

-- Stores what was loaded, without the children of the callers. After a clearing it is handed back
-- but not stored.
def complete (c : CallerCache) (g : LoadGuard) (children : List CallerNode) :
    List CallerNode × CallerCache :=
  let stored := children.map CallerNode.shallow
  (stored, if g.epoch = c.epoch then c.set g.key (.ready stored) else c)

-- Gives up a load, so that another client can try again.
def release (c : CallerCache) (g : LoadGuard) : CallerCache :=
  match c.slot? g.key with
  | some .loading => if g.epoch = c.epoch then c.remove g.key else c
  | _             => c

def clear (c : CallerCache) : CallerCache :=
  ⟨[], c.epoch + 1⟩

def isReady : CacheSlot → Bool
  | .ready _ => true
  | .loading => false

-- The number of places whose callers are known.
def size (c : CallerCache) : Nat :=
  c.slots.countP (isReady ·.2)

def isEmpty (c : CallerCache) : Bool :=
  c.size = 0

end CallerCache

end LogOrigin
