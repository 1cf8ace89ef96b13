import LogOrigin.Callers.Cache

-- What each operation of the cache does to the slots of all places.

namespace LogOrigin.CallerCache

variable {c : CallerCache} {k : CallerKey} {l : List CallerNode} {g : LoadGuard}

theorem get?_eq_some_iff : (c.get? k = some l) ↔ (c.slot? k = some (.ready l)) := by
  unfold get?
  split <;> simp_all

theorem get?_congr {d : CallerCache} (h : c.slot? k = d.slot? k) : c.get? k = d.get? k := by
  simp [get?, h]

theorem get?_absent (h : c.slot? k = none) : c.get? k = none := by
  simp [get?, h]

@[simp]
theorem get?_set_ready (c : CallerCache) (k : CallerKey) (l : List CallerNode) :
    (c.set k (.ready l)).get? k = some l := by
  simp [get?]

@[simp]
theorem epoch_set (c : CallerCache) (k : CallerKey) (s : CacheSlot) : (c.set k s).epoch = c.epoch :=
  rfl

theorem claim_ready (h : c.slot? k = some (.ready l)) : c.claim k = (.ready l, c) := by
  simp [claim, h]

theorem claim_loading (h : c.slot? k = some .loading) : c.claim k = (.busy, c) := by
  simp [claim, h]

theorem claim_absent (h : c.slot? k = none) :
    c.claim k = (.owner ⟨k, c.epoch⟩, c.set k .loading) := by
  simp [claim, h]

@[simp]
theorem epoch_claim (c : CallerCache) (k : CallerKey) : (c.claim k).2.epoch = c.epoch := by
  unfold claim
  split <;> rfl

theorem slot?_claim_ne {k' : CallerKey} (h : k' ≠ k) : (c.claim k).2.slot? k' = c.slot? k' := by
  unfold claim
  split
  case h_3 => exact slot?_set_ne h c .loading
  all_goals rfl

-- A claim takes away no list and adds none.
theorem get?_claim (c : CallerCache) (k k' : CallerKey) : (c.claim k).2.get? k' = c.get? k' := by
  by_cases hk : k' = k
  case neg => exact get?_congr <| slot?_claim_ne hk
  case pos =>
    subst hk
    cases hs : c.slot? k'
    case none => simp [claim_absent hs, get?, hs]
    case some slot =>
      cases slot
      case loading => rw [claim_loading hs]
      case ready l => rw [claim_ready hs]

-- Only a claim of a place that is ready hands out a list, and it changes nothing.
theorem claim_eq_ready_iff : ((c.claim k).1 = .ready l) ↔ (c.get? k = some l) := by
  unfold claim get?
  split <;> simp_all

theorem complete_current (h : g.epoch = c.epoch) :
    (c.complete g l).2 = c.set g.key (.ready (l.map CallerNode.shallow)) := by
  simp [complete, h]

theorem complete_stale (h : g.epoch ≠ c.epoch) : (c.complete g l).2 = c := by
  simp [complete, h]

@[simp]
theorem epoch_complete (c : CallerCache) (g : LoadGuard) (l : List CallerNode) :
    (c.complete g l).2.epoch = c.epoch := by
  by_cases h : g.epoch = c.epoch
  case pos => simp [complete_current h]
  case neg => rw [complete_stale h]

theorem slot?_complete_ne (h : k ≠ g.key) : (c.complete g l).2.slot? k = c.slot? k := by
  by_cases he : g.epoch = c.epoch
  case pos => rw [complete_current he, slot?_set_ne h]
  case neg => rw [complete_stale he]

theorem release_current (h : g.epoch = c.epoch) (hl : c.slot? g.key = some .loading) :
    c.release g = c.remove g.key := by
  simp [release, h, hl]

theorem release_stale (h : g.epoch ≠ c.epoch) : c.release g = c := by
  unfold release
  split <;> simp [h]

theorem release_settled (h : c.slot? g.key ≠ some .loading) : c.release g = c := by
  unfold release
  split
  case h_1 hl => exact absurd hl h
  case h_2    => rfl

@[simp]
theorem epoch_release (c : CallerCache) (g : LoadGuard) : (c.release g).epoch = c.epoch := by
  unfold release
  repeat' split
  all_goals rfl

theorem slot?_release_ne (h : k ≠ g.key) : (c.release g).slot? k = c.slot? k := by
  by_cases he : g.epoch = c.epoch
  case neg => rw [release_stale he]
  case pos =>
    by_cases hl : c.slot? g.key = some .loading
    case pos => rw [release_current he hl, slot?_remove_ne h]
    case neg => rw [release_settled hl]

-- A release never takes away a list.
theorem get?_release (c : CallerCache) (g : LoadGuard) (k : CallerKey) :
    (c.release g).get? k = c.get? k := by
  by_cases hk : k = g.key
  case neg => exact get?_congr <| slot?_release_ne hk
  case pos =>
    subst hk
    by_cases he : g.epoch = c.epoch
    case neg => rw [release_stale he]
    case pos =>
      by_cases hl : c.slot? g.key = some .loading
      case pos => simp [release_current he hl, get?, hl]
      case neg => rw [release_settled hl]

@[simp]
theorem slot?_clear (c : CallerCache) (k : CallerKey) : c.clear.slot? k = none :=
  rfl

@[simp]
theorem get?_clear (c : CallerCache) (k : CallerKey) : c.clear.get? k = none :=
  rfl

@[simp]
theorem epoch_clear (c : CallerCache) : c.clear.epoch = c.epoch + 1 :=
  rfl

theorem without_eq_self {m : List (CallerKey × CacheSlot)} (h : m.lookup k = none) :
    without k m = m := by
  rw [without, List.filter_eq_self]
  intro e he
  have hk := List.lookup_eq_none_iff.mp h e he
  simp only [bne_iff_ne, ne_eq]
  exact fun hc => by simp [hc] at hk

-- A claim that is given up leaves no trace.
theorem release_claim (h : c.slot? k = none) : (c.set k .loading).release ⟨k, c.epoch⟩ = c := by
  have hr : (c.set k .loading).release ⟨k, c.epoch⟩ = (c.set k .loading).remove k :=
    release_current rfl (slot?_set_self ..)
  have hw : without k ((k, .loading) :: without k c.slots) = c.slots := by
    rw [without_eq_self (m := c.slots) h]
    simpa [without] using without_eq_self h
  rw [hr, remove, set, hw]

-- One that is completed leaves no trace of itself.
theorem complete_claim (c : CallerCache) (k : CallerKey) (l : List CallerNode) :
    (c.set k .loading).complete ⟨k, c.epoch⟩ l =
      (l.map CallerNode.shallow, c.set k (.ready (l.map CallerNode.shallow))) := by
  have hw : without k ((k, .loading) :: without k c.slots) = without k c.slots := by
    simp [without]
  simp [complete, set, hw]

end LogOrigin.CallerCache
