import LogOrigin.Proofs.Cache.Clients
import Mathlib.Data.List.Nodup

-- The load of a place has one owner. The guards that are alive and the places that are being loaded
-- belong together in every state that the clients can reach.

namespace LogOrigin.SharedCache

variable {s t : SharedCache} {i j : Client} {k : CallerKey} {g : LoadGuard} {l : List CallerNode}
variable {e : Event} {h : List Event}

namespace Owned

theorem initial : Owned .initial where
  nodup         := List.nodup_nil
  epoch_le _    := by simp [SharedCache.initial]
  loading_iff k := by simp [SharedCache.initial, CallerCache.empty, CallerCache.slot?]

theorem mem_guards (hm : (i, g) ∈ s.guards) : g ∈ s.guards.map (·.2) :=
  List.mem_map_of_mem hm

theorem holder_unique (o : Owned s) (hi : (i, g) ∈ s.guards) (hj : (j, g) ∈ s.guards) : i = j := by
  have := List.inj_on_of_nodup_map o.nodup hi hj rfl
  exact congrArg Prod.fst this

theorem claim (o : Owned s) (i : Client) (k : CallerKey) : Owned (s.claim i k) := by
  by_cases ha : s.cache.slot? k = none
  case neg => rwa [claim_present ha]
  case pos =>
    have hk : ⟨k, s.cache.epoch⟩ ∉ s.guards.map (·.2) := by
      simp [← o.loading_iff, ha]
    rw [claim_absent ha]
    constructor
    case nodup => exact List.nodup_cons.mpr ⟨hk, o.nodup⟩
    case epoch_le =>
      intro x hx
      cases hx
      case head    => exact Nat.le_refl _
      case tail hx => exact o.epoch_le x hx
    case loading_iff =>
      intro k'
      by_cases hkk : k' = k
      case pos => simp [hkk]
      case neg => simpa [CallerCache.slot?_set_ne hkk, hkk] using o.loading_iff k'

-- The guard that a client lets go of was the only one of its kind.
theorem mem_erase_iff (o : Owned s) (hg : (i, g) ∈ s.guards) (g' : LoadGuard) :
    (g' ∈ (s.guards.erase (i, g)).map (·.2)) ↔ (g' ≠ g ∧ g' ∈ s.guards.map (·.2)) := by
  have hn : s.guards.Nodup := List.Nodup.of_map _ o.nodup
  simp only [List.mem_map, hn.mem_erase_iff]
  constructor
  case mp =>
    rintro ⟨⟨j, g'⟩, ⟨hne, hm⟩, rfl⟩
    refine ⟨?_, _, hm, rfl⟩
    rintro rfl
    exact hne <| by rw [o.holder_unique hg hm]
  case mpr =>
    rintro ⟨hne, ⟨x, hm, rfl⟩⟩
    exact ⟨x, ⟨fun hx => hne <| by rw [hx], hm⟩, rfl⟩

-- A client lets go of a guard. The place of the guard is no longer being loaded, unless the guard
-- was stale, and all else stays as it was.
theorem surrender {c : CallerCache} (o : Owned s) (hg : (i, g) ∈ s.guards)
    (he : c.epoch = s.cache.epoch) (hs : g.epoch ≠ s.cache.epoch → c = s.cache)
    (hc : g.epoch = s.cache.epoch → c.slot? g.key ≠ some .loading)
    (ho : ∀ k, k ≠ g.key → c.slot? k = s.cache.slot? k) :
    Owned ⟨c, s.guards.erase (i, g)⟩ where
  nodup      := o.nodup.sublist <| List.erase_sublist.map _
  epoch_le x := by
    intro hx
    simpa [he] using o.epoch_le x <| List.mem_of_mem_erase hx
  loading_iff k := by
    rw [he, o.mem_erase_iff hg, ← o.loading_iff]
    by_cases hk : k = g.key
    case neg =>
      have hn : ⟨k, s.cache.epoch⟩ ≠ g := fun h => hk <| by rw [← h]
      simp [ho k hk, hn]
    case pos =>
      subst hk
      by_cases hp : g.epoch = s.cache.epoch
      case pos => simp [hc hp, ← hp]
      case neg =>
        have hn : ⟨g.key, s.cache.epoch⟩ ≠ g := fun h => hp <| by rw [← h]
        simp [hs hp, hn]

theorem complete (o : Owned s) (hg : (i, g) ∈ s.guards) (l : List CallerNode) :
    Owned (s.complete i g l) := by
  apply o.surrender hg (CallerCache.epoch_complete ..) CallerCache.complete_stale
  case hc =>
    intro he
    simp [CallerCache.complete_current he]
  case ho =>
    intro k hk
    exact CallerCache.slot?_complete_ne hk

theorem release (o : Owned s) (hg : (i, g) ∈ s.guards) : Owned (s.release i g) := by
  apply o.surrender hg (CallerCache.epoch_release ..) CallerCache.release_stale
  case hc =>
    intro he
    have hl := (o.loading_iff g.key).mpr <| he ▸ mem_guards hg
    simp [CallerCache.release_current he hl]
  case ho =>
    intro k hk
    exact CallerCache.slot?_release_ne hk

theorem clear (o : Owned s) : Owned s.clear where
  nodup         := o.nodup
  epoch_le x hx := Nat.le_succ_of_le <| o.epoch_le x hx
  loading_iff k := by
    simp only [SharedCache.clear, CallerCache.slot?_clear, CallerCache.epoch_clear, List.mem_map,
      reduceCtorEq, false_iff, not_exists, not_and]
    intro x hx hg
    exact Nat.not_succ_le_self _ (hg ▸ o.epoch_le x hx)

theorem step (o : Owned s) (st : Step s e t) : Owned t := by
  cases st
  case claim         => exact o.claim ..
  case complete hg   => exact o.complete hg _
  case release hg    => exact o.release hg
  case clear         => exact o.clear
  case read          => exact o

theorem run (o : Owned s) (r : Run s h t) : Owned t := by
  induction r
  case refl         => exact o
  case step _ st hi => exact hi.step st

end Owned

theorem length_holders (s : SharedCache) (k : CallerKey) (epoch : Nat) :
    (s.holders k epoch).length = (s.guards.map (·.2)).count ⟨k, epoch⟩ := by
  rw [holders, List.length_map, ← List.countP_eq_length_filter, List.count, List.countP_map]
  rfl

namespace Owned

theorem length_holders_le (o : Owned s) (k : CallerKey) (epoch : Nat) :
    (s.holders k epoch).length ≤ 1 := by
  rw [length_holders]
  exact List.nodup_iff_count_le_one.mp o.nodup _

theorem length_holders_eq_iff (o : Owned s) (k : CallerKey) :
    ((s.holders k s.cache.epoch).length = 1) ↔ (s.cache.slot? k = some .loading) := by
  rw [length_holders, o.loading_iff]
  constructor
  case mp  => exact fun h => List.count_pos_iff.mp <| by omega
  case mpr => exact fun h => List.count_eq_one_of_mem o.nodup h

theorem holders_eq_nil (o : Owned s) (hl : s.cache.slot? k ≠ some .loading) :
    s.holders k s.cache.epoch = [] := by
  have h₁ := o.length_holders_le k s.cache.epoch
  have h₂ := mt (o.length_holders_eq_iff k).mp hl
  exact List.length_eq_zero_iff.mp <| by omega

-- A guard that has been given out before a clearing does nothing after it.
theorem stale (o : Owned s) (hg : (i, g) ∈ s.guards) (r : Run s h t) (hc : .cleared ∈ h) :
    g.epoch ≠ t.cache.epoch := by
  have h₁ := o.epoch_le _ hg
  have h₂ := r.epoch_lt hc
  simp only at h₁
  omega

-- Nobody but a new owner puts anything into the slot of a place without one.
theorem absent_step (o : Owned s) (st : Step s e t) (ha : s.cache.slot? k = none)
    (hc : ∀ j a, e ≠ .claimed j k a) : t.cache.slot? k = none := by
  cases st
  case claim i k' =>
    have hk : k ≠ k' := by
      rintro rfl
      exact hc i _ rfl
    rw [cache_claim, CallerCache.slot?_claim_ne hk, ha]
  case complete i g l hg =>
    have hl : ⟨k, s.cache.epoch⟩ ∉ s.guards.map (·.2) := by
      simp [← o.loading_iff, ha]
    by_cases hk : k = g.key
    case neg => exact (CallerCache.slot?_complete_ne hk).trans ha
    case pos =>
      have he : g.epoch ≠ s.cache.epoch := by
        rintro he
        exact hl <| by simpa [hk, ← he] using mem_guards hg
      simp [SharedCache.complete, CallerCache.complete_stale he, ha]
  case release i g hg =>
    by_cases hk : k = g.key
    case neg => exact (CallerCache.slot?_release_ne hk).trans ha
    case pos =>
      subst hk
      simp [SharedCache.release, CallerCache.release_settled, ha]
  case clear => rfl
  case read  => exact ha

theorem absent_run (o : Owned s) (r : Run s h t) (ha : s.cache.slot? k = none)
    (hc : ∀ j a, .claimed j k a ∉ h) : t.cache.slot? k = none := by
  induction r
  case refl => exact ha
  case step r st hi =>
    have hn := hi fun j a hm => hc j a <| List.mem_append_left _ hm
    refine (o.run r).absent_step st hn ?_
    rintro j a rfl
    exact hc j a <| by simp

theorem absent_release (o : Owned s) (hg : (i, g) ∈ s.guards) (he : g.epoch = s.cache.epoch) :
    (s.release i g).cache.slot? g.key = none := by
  have hl : s.cache.slot? g.key = some .loading :=
    (o.loading_iff g.key).mpr <| he ▸ mem_guards hg
  simp [SharedCache.release, CallerCache.release_current he hl]

end Owned

-- A place is being loaded iff exactly one guard for it from the present epoch is alive; no two
-- guards of any epoch are for the same place. What has been given out before a clearing changes
-- nothing after it, and once an owner has given up, the next claim of the place makes a new one.
theorem single_flight (r : Run .initial h s) :
    (∀ k, ((s.cache.slot? k = some .loading) ↔ ((s.holders k s.cache.epoch).length = 1)) ∧
      (s.cache.slot? k ≠ some .loading → s.holders k s.cache.epoch = [])) ∧
    (∀ k epoch, (s.holders k epoch).length ≤ 1) ∧
    (∀ i g h' t l, (i, g) ∈ s.guards → Run s h' t → .cleared ∈ h' →
      ((t.complete i g l).cache = t.cache) ∧ ((t.release i g).cache = t.cache)) ∧
    (∀ i g h' t j, (i, g) ∈ s.guards → g.epoch = s.cache.epoch → Run (s.release i g) h' t →
      (∀ j' a, .claimed j' g.key a ∉ h') →
      ((t.cache.claim g.key).1 = .owner ⟨g.key, t.cache.epoch⟩) ∧
      ((t.claim j g.key).holders g.key t.cache.epoch = [j])) := by
  have o := Owned.initial.run r
  refine ⟨?loading, o.length_holders_le, ?stale, ?released⟩
  case loading =>
    intro k
    exact ⟨(o.length_holders_eq_iff k).symm, o.holders_eq_nil⟩
  case stale =>
    intro i g h' t l hg r' hc
    have he := o.stale hg r' hc
    exact ⟨CallerCache.complete_stale he, CallerCache.release_stale he⟩
  case released =>
    intro i g h' t j hg he r' hc
    have o' := (o.release hg).run r'
    have ha := (o.release hg).absent_run r' (o.absent_release hg he) hc
    have hn := o'.holders_eq_nil (k := g.key) <| by simp [ha]
    refine ⟨by rw [CallerCache.claim_absent ha], ?_⟩
    rw [claim_absent ha]
    simpa [holders] using hn

-- The second owner of a place that has been claimed before a clearing and after it.
theorem single_flight_cleared :
    let k : CallerKey := ⟨[.name ['a']], 3⟩
    let s := initial.claim 0 k
    let t := s.clear.claim 1 k
    Run .initial [.claimed 0 k (.owner ⟨k, 0⟩)] s ∧
    Run s [.cleared, .claimed 1 k (.owner ⟨k, 1⟩)] t ∧
    ((t.release 0 ⟨k, 0⟩).cache = t.cache) ∧
    ((t.holders k 1).length = 1) := by
  intro k s t
  have r₁ : Run .initial [.claimed 0 k (.owner ⟨k, 0⟩)] s :=
    Run.refl.step (.claim 0 k)
  have r₂ : Run s [.cleared, .claimed 1 k (.owner ⟨k, 1⟩)] t :=
    (Run.refl.step .clear).step (.claim 1 k)
  have ⟨_, _, hs, _⟩ := single_flight r₁
  have ⟨hl, _, _, _⟩ := single_flight (r₁.trans r₂)
  exact ⟨r₁, r₂, (hs 0 ⟨k, 0⟩ _ t [] (by decide) r₂ (by simp)).right, (hl k).left.mp rfl⟩

end LogOrigin.SharedCache
