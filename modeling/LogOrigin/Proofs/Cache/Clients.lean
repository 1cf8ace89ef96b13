import LogOrigin.Proofs.Cache.Operations

-- A cache that any number of clients use at the same time. Every operation holds the lock of the
-- cache, so that the steps of the clients come one after the other, in any order. A client that
-- finds a place being loaded looks at it again when it is woken, or gives up; each look is a step.

namespace LogOrigin

abbrev Client := Nat

structure SharedCache where
  cache  : CallerCache
  -- The guards that are still alive, with the clients that hold them.
  guards : List (Client × LoadGuard)

namespace SharedCache

def initial : SharedCache := ⟨.empty, []⟩

def claim (s : SharedCache) (i : Client) (k : CallerKey) : SharedCache :=
  match s.cache.claim k with
  | (.owner g, c) => ⟨c, (i, g) :: s.guards⟩
  | (_, c)        => ⟨c, s.guards⟩

def complete (s : SharedCache) (i : Client) (g : LoadGuard) (l : List CallerNode) : SharedCache :=
  ⟨(s.cache.complete g l).2, s.guards.erase (i, g)⟩

def release (s : SharedCache) (i : Client) (g : LoadGuard) : SharedCache :=
  ⟨s.cache.release g, s.guards.erase (i, g)⟩

def clear (s : SharedCache) : SharedCache :=
  { s with cache := s.cache.clear }

-- What can be seen of a step.
inductive Event where
  | claimed (i : Client) (k : CallerKey) (answer : Claim)
  | completed (i : Client) (g : LoadGuard) (children : List CallerNode)
  | released (i : Client) (g : LoadGuard)
  | cleared
  | read (i : Client) (k : CallerKey) (answer : Option (List CallerNode))

namespace Event

-- The list that a step hands out, with its place.
def handedOut? : Event → Option (CallerKey × List CallerNode)
  | claimed _ k (.ready l) => some (k, l)
  | read _ k (some l)      => some (k, l)
  | _                      => none

-- The guard whose life a step ends.
def ended? : Event → Option (Client × LoadGuard)
  | completed i g _ => some (i, g)
  | released i g    => some (i, g)
  | _               => none

end Event

inductive Step (s : SharedCache) : Event → SharedCache → Prop
  | claim (i k)        : Step s (.claimed i k (s.cache.claim k).1) (s.claim i k)
  | complete {i g} (l) : (i, g) ∈ s.guards → Step s (.completed i g l) (s.complete i g l)
  | release {i g}      : (i, g) ∈ s.guards → Step s (.released i g) (s.release i g)
  | clear              : Step s .cleared s.clear
  | read (i k)         : Step s (.read i k (s.cache.get? k)) s

-- A run with its history, the latest event at the end.
inductive Run (s : SharedCache) : List Event → SharedCache → Prop
  | refl : Run s [] s
  | step {h t e u} : Run s h t → Step t e u → Run s (h ++ [e]) u

-- The clients that hold guards for a place from an epoch.
def holders (s : SharedCache) (k : CallerKey) (epoch : Nat) : List Client :=
  (s.guards.filter (·.2 = ⟨k, epoch⟩)).map (·.1)

-- Every place that is being loaded has a guard, and every guard from the present epoch has a place
-- that is being loaded. No two guards are for the same place and from the same epoch.
structure Owned (s : SharedCache) : Prop where
  nodup       : (s.guards.map (·.2)).Nodup
  epoch_le    : ∀ x ∈ s.guards, x.2.epoch ≤ s.cache.epoch
  loading_iff : ∀ k, (s.cache.slot? k = some .loading) ↔ (⟨k, s.cache.epoch⟩ ∈ s.guards.map (·.2))

variable {s t u : SharedCache} {i j : Client} {k : CallerKey} {g : LoadGuard} {l : List CallerNode}
variable {e : Event} {h : List Event}

theorem claim_absent (ha : s.cache.slot? k = none) :
    s.claim i k = ⟨s.cache.set k .loading, (i, ⟨k, s.cache.epoch⟩) :: s.guards⟩ := by
  simp [claim, CallerCache.claim_absent ha]

theorem claim_present (ha : s.cache.slot? k ≠ none) : s.claim i k = s := by
  unfold claim
  cases hs : s.cache.slot? k
  case none => exact absurd hs ha
  case some slot =>
    cases slot
    case loading => simp [CallerCache.claim_loading hs]
    case ready l => simp [CallerCache.claim_ready hs]

@[simp]
theorem cache_claim (s : SharedCache) (i : Client) (k : CallerKey) :
    (s.claim i k).cache = (s.cache.claim k).2 := by
  unfold claim
  split <;> simp_all

namespace Run

theorem trans {h' : List Event} (r : Run s h t) (r' : Run t h' u) : Run s (h ++ h') u := by
  induction r'
  case refl         => simpa using r
  case step _ st hi => simpa using hi.step st

theorem split {h' : List Event} (r : Run s (h ++ h') u) : ∃ t, Run s h t ∧ Run t h' u := by
  generalize hh : h ++ h' = l at r
  induction r generalizing h'
  case refl =>
    obtain ⟨rfl, rfl⟩ := List.append_eq_nil_iff.mp hh
    exact ⟨s, .refl, .refl⟩
  case step l t e u r hs hi =>
    cases List.eq_nil_or_concat h'
    case inl hn =>
      subst hn
      simp only [List.append_nil] at hh
      exact ⟨u, hh ▸ r.step hs, .refl⟩
    case inr hc =>
      obtain ⟨m, e', rfl⟩ := hc
      rw [List.concat_eq_append, ← List.append_assoc] at hh
      obtain ⟨rfl, he⟩ := List.append_inj' hh rfl
      obtain rfl : e' = e := by simpa using he
      have ⟨v, r₁, r₂⟩ := hi rfl
      exact ⟨v, r₁, by simpa using r₂.step hs⟩

theorem split_cons {h' : List Event} (r : Run s (h ++ e :: h') u) :
    ∃ t t', Run s h t ∧ Step t e t' ∧ Run t' h' u := by
  rw [List.append_cons] at r
  have ⟨t', r₁, r₂⟩ := r.split
  generalize hh : h ++ [e] = l at r₁
  cases r₁
  case refl => simp at hh
  case step m t e' r st =>
    obtain ⟨rfl, he⟩ := List.append_inj' hh rfl
    obtain rfl : e = e' := by simpa using he
    exact ⟨t, t', r, st, r₂⟩

end Run

namespace Step

theorem epoch_le (st : Step s e t) : s.cache.epoch ≤ t.cache.epoch := by
  cases st <;> simp [SharedCache.complete, SharedCache.release, SharedCache.clear]

end Step

namespace Run

theorem epoch_le (r : Run s h t) : s.cache.epoch ≤ t.cache.epoch := by
  induction r
  case refl         => exact Nat.le_refl _
  case step _ st hi => exact Nat.le_trans hi st.epoch_le

-- A clearing makes all guards that were given out before it stale.
theorem epoch_lt (r : Run s h t) (hc : .cleared ∈ h) : s.cache.epoch < t.cache.epoch := by
  induction r
  case refl         => simp at hc
  case step r st hi =>
    cases List.mem_append.mp hc
    case inl hm => exact Nat.lt_of_lt_of_le (hi hm) st.epoch_le
    case inr hm =>
      obtain rfl := List.mem_singleton.mp hm
      cases st
      simpa [clear] using Nat.lt_succ_of_le r.epoch_le

end Run

end SharedCache

end LogOrigin
