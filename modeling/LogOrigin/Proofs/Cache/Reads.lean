import LogOrigin.Proofs.Cache.SingleFlight

-- Where the lists come from that clients read. A list is read as a whole as it was loaded, it stays
-- the same until the next clearing, and none survives a clearing.

namespace LogOrigin.SharedCache

variable {s t : SharedCache} {i j : Client} {k : CallerKey} {g : LoadGuard} {l m : List CallerNode}
variable {e : Event} {h h' : List Event}

-- A client has claimed the place of a guard since the last clearing, and has held it ever since.
def Claimed (h : List Event) (i : Client) (g : LoadGuard) : Prop :=
  ∃ before since, h = before ++ .claimed i g.key (.owner g) :: since ∧
    ∀ e ∈ since, e ≠ .cleared ∧ e.ended? ≠ some (i, g)

-- A list is what a client has loaded for a place since the last clearing, without the children of
-- the nodes. The client has claimed the place since then, too.
def Loaded (h : List Event) (k : CallerKey) (l : List CallerNode) : Prop :=
  ∃ before i g children since, h = before ++ .completed i g children :: since ∧
    .cleared ∉ since ∧ Claimed before i g ∧ g.key = k ∧ l = children.map CallerNode.shallow

theorem Claimed.append (c : Claimed h i g) (hc : e ≠ .cleared) (he : e.ended? ≠ some (i, g)) :
    Claimed (h ++ [e]) i g := by
  obtain ⟨before, since, rfl, hs⟩ := c
  refine ⟨before, since ++ [e], by simp, ?_⟩
  intro e' hm
  cases List.mem_append.mp hm
  case inl hm => exact hs e' hm
  case inr hm => exact List.mem_singleton.mp hm ▸ ⟨hc, he⟩

theorem Loaded.append (d : Loaded h k l) (hc : e ≠ .cleared) : Loaded (h ++ [e]) k l := by
  obtain ⟨before, i, g, children, since, rfl, hs, d⟩ := d
  exact ⟨before, i, g, children, since ++ [e], by simp, by simp [hs, hc.symm], d⟩

-- All that a history explains of a state.
structure Explained (h : List Event) (s : SharedCache) : Prop where
  owned  : Owned s
  guards : ∀ i g, (i, g) ∈ s.guards → g.epoch = s.cache.epoch → Claimed h i g
  lists  : ∀ k l, s.cache.get? k = some l → Loaded h k l

namespace Explained

theorem initial : Explained [] .initial where
  owned          := .initial
  guards _ _ hg  := by cases hg
  lists _ _ hl   := by cases hl

-- A step that ends the life of a guard leaves the other guards as they were.
theorem guards_erase {g' : LoadGuard} (x : Explained h s) (he : e.ended? = some (i, g))
    (hj : (j, g') ∈ s.guards.erase (i, g)) (hg : g'.epoch = s.cache.epoch) :
    Claimed (h ++ [e]) j g' := by
  have hn : s.guards.Nodup := List.Nodup.of_map _ x.owned.nodup
  have ⟨hne, hm⟩ := hn.mem_erase_iff.mp hj
  refine (x.guards j g' hm hg).append ?_ ?_
  · rintro rfl
    cases he
  · simpa [he] using hne.symm

theorem claim (x : Explained h s) (i : Client) (k : CallerKey) :
    Explained (h ++ [.claimed i k (s.cache.claim k).1]) (s.claim i k) where
  owned := x.owned.claim i k
  guards j g hj he := by
    have old (hm : (j, g) ∈ s.guards) (hg : g.epoch = s.cache.epoch) :
        Claimed (h ++ [.claimed i k (s.cache.claim k).1]) j g :=
      (x.guards j g hm hg).append (by simp) (by simp [Event.ended?])
    simp only [cache_claim, CallerCache.epoch_claim] at he
    by_cases ha : s.cache.slot? k = none
    case neg => exact old (by rwa [claim_present ha] at hj) he
    case pos =>
      rw [claim_absent ha] at hj
      cases hj
      case tail hj => exact old hj he
      case head    => exact ⟨h, [], by simp [CallerCache.claim_absent ha], by simp⟩
  lists k' l hl := by
    rw [cache_claim, CallerCache.get?_claim] at hl
    exact (x.lists k' l hl).append (by simp)

theorem complete (x : Explained h s) (hg : (i, g) ∈ s.guards) (l : List CallerNode) :
    Explained (h ++ [.completed i g l]) (s.complete i g l) where
  owned := x.owned.complete hg l
  guards j g' hj he := x.guards_erase rfl hj <| by simpa [SharedCache.complete] using he
  lists k m hm := by
    have old (hm : s.cache.get? k = some m) : Loaded (h ++ [.completed i g l]) k m :=
      (x.lists k m hm).append (by simp)
    simp only [SharedCache.complete] at hm
    by_cases he : g.epoch = s.cache.epoch
    case neg => exact old (by rwa [CallerCache.complete_stale he] at hm)
    case pos =>
      by_cases hk : k = g.key
      case neg =>
        rw [CallerCache.get?_congr (CallerCache.slot?_complete_ne hk)] at hm
        exact old hm
      case pos =>
        have hm : l.map CallerNode.shallow = m := by
          simpa [CallerCache.complete_current he, CallerCache.get?_eq_some_iff, hk] using hm
        exact ⟨h, i, g, l, [], rfl, by simp, x.guards i g hg he, hk.symm, hm.symm⟩

theorem release (x : Explained h s) (hg : (i, g) ∈ s.guards) :
    Explained (h ++ [.released i g]) (s.release i g) where
  owned := x.owned.release hg
  guards j g' hj he := x.guards_erase rfl hj <| by simpa [SharedCache.release] using he
  lists k l hl := by
    simp only [SharedCache.release, CallerCache.get?_release] at hl
    exact (x.lists k l hl).append (by simp)

theorem clear (x : Explained h s) : Explained (h ++ [.cleared]) s.clear where
  owned := x.owned.clear
  guards i g hg he := by
    have := x.owned.epoch_le _ hg
    simp only [SharedCache.clear, CallerCache.epoch_clear] at he this
    omega
  lists k l hl := by simp [SharedCache.clear] at hl

theorem read (x : Explained h s) (i : Client) (k : CallerKey) :
    Explained (h ++ [.read i k (s.cache.get? k)]) s where
  owned := x.owned
  guards j g hg he := (x.guards j g hg he).append (by simp) (by simp [Event.ended?])
  lists k l hl := (x.lists k l hl).append (by simp)

theorem step (x : Explained h s) (st : Step s e t) : Explained (h ++ [e]) t := by
  cases st
  case claim       => exact x.claim ..
  case complete hg => exact x.complete hg _
  case release hg  => exact x.release hg
  case clear       => exact x.clear
  case read        => exact x.read ..

theorem run (r : Run .initial h s) : Explained h s := by
  induction r
  case refl         => exact initial
  case step _ st hi => exact hi.step st

end Explained

-- A place with a list has no guard that could complete it once more.
theorem get?_step (o : Owned s) (st : Step s e t) (hc : e ≠ .cleared)
    (hl : s.cache.get? k = some l) : t.cache.get? k = some l := by
  cases st
  case claim i k' => rw [cache_claim, CallerCache.get?_claim, hl]
  case complete i g m hg =>
    by_cases hk : k = g.key
    case neg => exact (CallerCache.get?_congr <| CallerCache.slot?_complete_ne hk).trans hl
    case pos =>
      have he : g.epoch ≠ s.cache.epoch := by
        rintro he
        have := (o.loading_iff g.key).mpr <| he ▸ Owned.mem_guards hg
        rw [CallerCache.get?_eq_some_iff, hk, this] at hl
        cases hl
      simp [SharedCache.complete, CallerCache.complete_stale he, hl]
  case release i g hg => simp [SharedCache.release, CallerCache.get?_release, hl]
  case clear          => exact absurd rfl hc
  case read           => exact hl

theorem get?_run (o : Owned s) (r : Run s h t) (hc : .cleared ∉ h) (hl : s.cache.get? k = some l) :
    t.cache.get? k = some l := by
  induction r
  case refl => exact hl
  case step r st hi =>
    simp only [List.mem_append, List.mem_singleton, not_or] at hc
    exact get?_step (o.run r) st (Ne.symm hc.right) <| hi hc.left

theorem Step.get?_of_handedOut (st : Step s e t) (hl : e.handedOut? = some (k, l)) :
    s.cache.get? k = some l := by
  cases st
  case claim i k' =>
    cases ha : (s.cache.claim k').1
    case ready m =>
      simp only [ha, Event.handedOut?, Option.some.injEq, Prod.mk.injEq] at hl
      obtain ⟨rfl, rfl⟩ := hl
      exact CallerCache.claim_eq_ready_iff.mp ha
    all_goals simp [ha, Event.handedOut?] at hl
  case read i k' =>
    cases ha : s.cache.get? k'
    case none => simp [ha, Event.handedOut?] at hl
    case some m =>
      simp only [ha, Event.handedOut?, Option.some.injEq, Prod.mk.injEq] at hl
      obtain ⟨rfl, rfl⟩ := hl
      exact ha
  all_goals simp [Event.handedOut?] at hl

-- Every list that is handed out has been loaded since the last clearing. Without a clearing in
-- between, all lists that are handed out for a place are the same; a list that is known stays.
theorem reads_stable (r : Run .initial h s) :
    (∀ before e since k l, h = before ++ e :: since → e.handedOut? = some (k, l) →
      Loaded before k l) ∧
    (∀ before e between f since k l m, h = before ++ e :: (between ++ f :: since) →
      .cleared ∉ between → e.handedOut? = some (k, l) → f.handedOut? = some (k, m) → l = m) ∧
    (∀ h' t k l, Run s h' t → .cleared ∉ h' → s.cache.get? k = some l →
      t.cache.get? k = some l) := by
  refine ⟨?loaded, ?agree, ?kept⟩
  case loaded =>
    rintro before e since k l rfl hl
    have ⟨t, _, r₁, st, _⟩ := r.split_cons
    exact (Explained.run r₁).lists k l <| st.get?_of_handedOut hl
  case agree =>
    rintro before e between f since k l m rfl hc hl hm
    have ⟨t, t', r₁, st₁, r₂⟩ := r.split_cons
    have ⟨u, _, r₂, st₂, _⟩ := r₂.split_cons
    have o := Owned.initial.run r₁
    have hne : e ≠ .cleared := by
      rintro rfl
      cases hl
    have hl' := get?_step o st₁ hne <| st₁.get?_of_handedOut hl
    have hl' := get?_run (o.step st₁) r₂ hc hl'
    exact Option.some.inj <| hl'.symm.trans <| st₂.get?_of_handedOut hm
  case kept =>
    intro h' t k l r' hc hl
    exact get?_run (Owned.initial.run r) r' hc hl

-- A place that is loaded before and after a clearing, with the first guard completed last.
theorem reads_stable_reloaded :
    let k : CallerKey := ⟨[.name ['a']], 3⟩
    let n : CallerNode := .root ⟨['b']⟩ 5
    let h : List Event := [.claimed 0 k (.owner ⟨k, 0⟩), .cleared, .claimed 1 k (.owner ⟨k, 1⟩),
      .completed 1 ⟨k, 1⟩ [n], .completed 0 ⟨k, 0⟩ []]
    (∃ s, Run .initial (h ++ [.read 2 k (some [n])]) s) ∧ Loaded h k [n] := by
  intro k n h
  have r : Run .initial (h ++ [.read 2 k (some [n])]) _ :=
    Run.refl.step (.claim 0 k)
      |>.step .clear
      |>.step (.claim 1 k)
      |>.step (.complete [n] (by decide))
      |>.step (.complete [] (by decide))
      |>.step (.read 2 k)
  exact ⟨⟨_, r⟩, (reads_stable r).left h _ [] k [n] rfl rfl⟩

end LogOrigin.SharedCache
