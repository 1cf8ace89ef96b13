import LogOrigin.Proofs.Callers.Attempt
import LogOrigin.Proofs.Callers.Hydration

-- The same expansion once more. If its oracle ranks whatever it is asked, then a repetition comes
-- to the same node and leaves everything as it is, and of the cache only the place of the node
-- matters to anybody else.

namespace LogOrigin

namespace Hydration

variable {c d : CallerCache} {bound : Nat} {k : CallerKey} {p : Pending} {queue : List Pending}

-- A place on the way to a node is never looked up.
theorem kids?_congr (bound : Nat) (h : ∀ k', k' ≠ k → c.get? k' = d.get? k') (hp : k ∈ p.path) :
    kids? c bound p = kids? d bound p := by
  by_cases hk : p.key = k
  case pos => simp [kids?, hk, hp]
  case neg => simp [kids?, h p.key hk]

theorem path_of_kids? (h : kids? c bound p = some queue) (hp : k ∈ p.path) :
    ∀ q ∈ queue, k ∈ q.path := by
  unfold kids? at h
  split at h
  case isTrue  => cases h
  case isFalse =>
    obtain ⟨l, _, rfl⟩ := Option.map_eq_some_iff.mp h
    intro q hq
    obtain ⟨n, _, rfl⟩ := List.mem_map.mp hq
    exact List.mem_append_left _ hp

theorem visits_congr (h : ∀ k', k' ≠ k → c.get? k' = d.get? k') (hq : ∀ p ∈ queue, k ∈ p.path) :
    visits c bound queue = visits d bound queue := by
  induction queue using visits.induct c bound
  case case1 => simp [visits]
  case case2 p queue hk hi =>
    have hp := kids?_congr bound h <| hq p (List.mem_cons_self ..)
    rw [visits_none hk, visits_none (hp ▸ hk), hi fun q hm => hq q (List.mem_cons_of_mem _ hm)]
  case case3 p queue l hk hi =>
    have hp := hq p (List.mem_cons_self ..)
    rw [visits_some hk, visits_some (kids?_congr bound h hp ▸ hk), hi]
    intro q hm
    cases List.mem_append.mp hm
    case inl hm => exact hq q (List.mem_cons_of_mem _ hm)
    case inr hm => exact path_of_kids? hk hp q hm

theorem path_start (k : CallerKey) (children : List CallerNode) :
    ∀ p ∈ children.map (start k), k ∈ p.path := by
  intro p hp
  obtain ⟨n, _, rfl⟩ := List.mem_map.mp hp
  exact List.mem_singleton_self k

theorem hydrate_congr (h : ∀ k', k' ≠ k → c.get? k' = d.get? k') (children : List CallerNode) :
    hydrate c bound k children = hydrate d bound k children := by
  rw [hydrate, hydrate, visits_congr h (path_start k children)]

end Hydration

namespace Expansion

variable {σ : Type} {a : Advisers σ} {s : CallerSettings} {fs : Files} {ctx : ExpansionContext}
variable {cancelled : Bool} {n : CallerNode} {w w' : Surroundings σ}
variable {children : Option (List CallerNode)} {log : List Oracle.Call}

theorem usages_again {file : FilePath} {symbol : Symbol} {r r' : Resolver}
    {found : Except Failure (List Usage)} (h : usages a fs file symbol r = (found, r')) :
    usages a fs file symbol r' = (found, r') := by
  have ofText {name : Text} (h : usages.ofText fs name r = (found, r')) :
      usages.ofText fs name r' = (found, r') := by
    unfold usages.ofText at h
    split at h
    all_goals
      cases h
      simp [usages.ofText, Resolver.sources_again ‹_›]
  unfold usages at h ⊢
  split at h
  case h_1 => cases h; rfl
  case h_2 => exact ofText h
  case h_3 => exact ofText h

theorem gather_again {i : CallerInfo} {r r' : Resolver} {found : Except Failure Gathered}
    (h : gather a s fs cancelled i r = (found, r')) :
    gather a s fs cancelled i r' = (found, r') := by
  unfold gather at h ⊢
  split at h
  case h_1 => cases h; rfl
  case h_2 =>
    split at h
    case h_1 => cases h; rfl
    case h_2 =>
      split at h
      case h_1 hu =>
        cases h
        simp only [usages_again hu]
      case h_2 r₁ hu =>
        -- Whatever comes after the search for usages leaves the resolver alone.
        have hr : r₁ = r' := by
          repeat' split at h
          all_goals cases h; rfl
        subst hr
        simpa only [usages_again hu] using h

-- An expansion changes the cache at most for the place of its node.
theorem Ends.get?_ne {k : CallerKey} (x : Ends a s fs ctx cancelled n w children w' log)
    (hk : k ≠ n.key) : w'.cache.get? k = w.cache.get? k := by
  cases x
  case ranked => exact CallerCache.get?_congr <| CallerCache.slot?_set_ne hk ..
  all_goals rfl

-- The oracle ranks whatever it is asked.
def Answers (a : Advisers σ) : Prop :=
  ∀ request m, ∃ ranked, (a.oracle.rank request m).1 = .ok ranked

theorem expand_again (hn : n.isExpanded = false) (hc : w.cache.Settled) (ha : Answers a) :
    expand a s fs ctx cancelled n (expand a s fs ctx cancelled n w).2 =
      expand a s fs ctx cancelled n w := by
  have ⟨_, _, he, x⟩ := expand_ends a s fs ctx cancelled w hn
  rw [he]
  generalize calls a s fs ctx cancelled n w = log at x
  cases x
  case known   => exact he
  case busy hk => exact absurd hk <| hc n.key
  case calledOff r hk hg =>
    exact expand_failed (w := { w with resolver := r }) hn hk <| gather_again hg
  case failed r hk hg hf =>
    have h : expand a s fs ctx cancelled n { w with resolver := r } = _ :=
      expand_failed hn hk <| gather_again hg
    rwa [if_neg hf] at h
  case callers r hk hg =>
    exact expand_callers (w := { w with resolver := r }) hn hk <| gather_again hg
  case unranked l _ _ _ _ _ ho =>
    have ⟨_, ha⟩ := ha (ctx.request l) w.memory
    rw [ho] at ha
    cases ha
  case ranked => exact expand_known hn <| CallerCache.get?_set_ready ..

end Expansion

end LogOrigin
