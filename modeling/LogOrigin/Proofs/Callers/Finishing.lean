import LogOrigin.Proofs.Callers.Expansion

-- However an expansion ends, its node is done with, nobody is left loading, and the cache has
-- gained no more than the callers that have been ranked for the place of the node.

namespace LogOrigin

namespace CallerCache

variable {c : CallerCache}

-- No place is being loaded.
def Settled (c : CallerCache) : Prop :=
  ∀ k, c.slot? k ≠ some .loading

theorem Settled.empty : Settled .empty := by
  intro k h
  cases h

theorem Settled.clear (c : CallerCache) : c.clear.Settled := by
  intro k h
  cases h

theorem Settled.set (h : c.Settled) (k : CallerKey) (l : List CallerNode) :
    (c.set k (.ready l)).Settled := by
  intro k' hk
  by_cases he : k' = k
  case pos => simp [he] at hk
  case neg => exact h k' <| slot?_set_ne he c _ ▸ hk

end CallerCache

namespace Expansion

variable {σ : Type} {a : Advisers σ} {s : CallerSettings} {fs : Files} {ctx : ExpansionContext}
variable {cancelled : Bool} {n : CallerNode} {w w' : Surroundings σ}
variable {children : Option (List CallerNode)} {log : List Oracle.Call}

-- What a graph can have around it after expansions and clearings one after the other. Files,
-- advisers and contexts may be different ones each time, and in between others may use the oracle
-- and look for source files.
inductive Reachable (s : CallerSettings) : Surroundings σ → Prop where
  | initial (r : Resolver) (m : σ) :
    Reachable s ⟨.empty, r, m⟩
  | expand {w : Surroundings σ} (a : Advisers σ) (fs : Files) (ctx : ExpansionContext)
      (cancelled : Bool) (n : CallerNode) :
    Reachable s w → Reachable s (Expansion.expand a s fs ctx cancelled n w).2
  | clear {w : Surroundings σ} :
    Reachable s w → Reachable s { w with cache := w.cache.clear }
  | elsewhere {w : Surroundings σ} (r : Resolver) (m : σ) :
    Reachable s w → Reachable s ⟨w.cache, r, m⟩

-- One of the questions has been answered with a ranking.
def Succeeded (a : Advisers σ) (m : σ) (log : List Oracle.Call) : Prop :=
  ∃ request ranked, .rank request ∈ log ∧ (a.oracle.rank request m).1 = .ok ranked

-- What holds of a node and its surroundings after its expansion.
structure Finished (a : Advisers σ) (cancelled : Bool) (n : CallerNode) (w : Surroundings σ)
    (n' : CallerNode) (w' : Surroundings σ) (log : List Oracle.Call) : Prop where
  info       : n'.info = n.info
  loading    : n'.loading = false
  unexpanded : n'.isExpanded = false → cancelled = true
  kept       : ∀ k l, w.cache.get? k = some l → w'.cache.get? k = some l
  added      : ∀ k, w.cache.get? k = none →
    (w'.cache.get? k ≠ none ↔ k = n.key ∧ Succeeded a w.memory log)
  asked      : log.length ≤ 1
  silent     : cancelled = true → log = []

theorem Ends.settled (x : Ends a s fs ctx cancelled n w children w' log)
    (h : w.cache.Settled) : w'.cache.Settled := by
  cases x
  case ranked => exact h.set n.key _
  all_goals exact h

theorem Ends.length_le (x : Ends a s fs ctx cancelled n w children w' log) : log.length ≤ 1 := by
  cases x <;> simp

-- What is known about a place stays as it is.
theorem Ends.kept {k : CallerKey} {l : List CallerNode}
    (x : Ends a s fs ctx cancelled n w children w' log) (hl : w.cache.get? k = some l) :
    w'.cache.get? k = some l := by
  cases x
  case ranked hk _ _ =>
    have hne : k ≠ n.key := by
      rintro rfl
      simp [CallerCache.get?_absent hk] at hl
    exact (CallerCache.get?_congr <| CallerCache.slot?_set_ne hne ..).trans hl
  all_goals exact hl

-- An end after which the cache is as it was.
theorem Finished.of_cache_eq (hc : w'.cache = w.cache) (hs : ¬Succeeded a w.memory log)
    (hn : children = none → cancelled = true) (ha : log.length ≤ 1)
    (hq : cancelled = true → log = []) :
    Finished a cancelled n w (.node n.info false children) w' log where
  info         := rfl
  loading      := rfl
  unexpanded h := hn <| by simpa [CallerNode.isExpanded, CallerNode.children] using h
  kept k l hl  := hc ▸ hl
  added k hk   := by simp [hc, hk, hs]
  asked        := ha
  silent       := hq

-- An end that is reached without the oracle.
theorem Finished.of_unasked (hc : w'.cache = w.cache) (hn : children = none → cancelled = true) :
    Finished a cancelled n w (.node n.info false children) w' [] := by
  have hs : ¬Succeeded a w.memory [] := by simp [Succeeded]
  exact .of_cache_eq hc hs hn (Nat.zero_le _) fun _ => rfl

theorem Ends.finished (x : Ends a s fs ctx cancelled n w children w' log)
    (h : w.cache.Settled) : Finished a cancelled n w (.node n.info false children) w' log := by
  have kept {k l} := x.kept (k := k) (l := l)
  cases x
  case known | failed | callers => exact .of_unasked rfl nofun
  case busy hk      => exact absurd hk <| h _
  case calledOff hg => exact .of_unasked rfl fun _ => gather_cancelled hg
  case unranked l r e m hk hg ho =>
    have hc := (gather_candidates hg).left
    have failed : ¬Succeeded a w.memory [.rank (ctx.request l)] := by
      simp [Succeeded, ho]
    exact .of_cache_eq rfl failed (by simp) (by simp) (by simp [hc])
  case ranked l r ranked m hk hg ho =>
    have hc := (gather_candidates hg).left
    have succeeded : Succeeded a w.memory [.rank (ctx.request l)] :=
      ⟨ctx.request l, ranked, by simp, by simp [ho]⟩
    refine ⟨rfl, rfl, nofun, fun _ _ => kept, ?added, by simp, by simp [hc]⟩
    case added =>
      intro k hl
      by_cases he : k = n.key
      case pos => simp [he, succeeded, CallerCache.get?]
      case neg => simp [he, hl, CallerCache.get?_congr <| CallerCache.slot?_set_ne he w.cache _]

theorem settled_expand (a : Advisers σ) (s : CallerSettings) (fs : Files) (ctx : ExpansionContext)
    (cancelled : Bool) (n : CallerNode) (h : w.cache.Settled) :
    (expand a s fs ctx cancelled n w).2.cache.Settled := by
  cases hn : n.isExpanded
  case true => rwa [expand_expanded hn]
  case false =>
    have ⟨_, _, he, x⟩ := expand_ends a s fs ctx cancelled w hn
    rw [he]
    exact x.settled h

-- Between expansions nobody is loading.
theorem Reachable.settled (r : Reachable s w) : w.cache.Settled := by
  induction r
  case initial              => exact .empty
  case expand a _ _ _ _ _ h => exact settled_expand a s _ _ _ _ h
  case clear                => exact .clear _
  case elsewhere h          => exact h

-- In all that a graph can have around it, an expansion finishes a node without children, and
-- leaves a node with children and everything else alone.
theorem expand_finishes (a : Advisers σ) (fs : Files) (ctx : ExpansionContext) (cancelled : Bool)
    (n : CallerNode) (r : Reachable s w) :
    (expand a s fs ctx cancelled n w).2.cache.Settled ∧
    (n.isExpanded = false →
      Finished a cancelled n w (expand a s fs ctx cancelled n w).1
        (expand a s fs ctx cancelled n w).2 (calls a s fs ctx cancelled n w)) ∧
    (n.isExpanded = true →
      expand a s fs ctx cancelled n w = (n, w) ∧
      calls a s fs ctx cancelled n w = []) := by
  refine ⟨?settled, ?unexpanded, ?expanded⟩
  case settled => exact settled_expand a s fs ctx cancelled n r.settled
  case unexpanded =>
    intro hn
    have ⟨_, _, he, x⟩ := expand_ends a s fs ctx cancelled w hn
    rw [he]
    exact x.finished r.settled
  case expanded =>
    intro hn
    refine ⟨expand_expanded hn, ?_⟩
    rw [calls, expand_expanded hn]

-- A function with a known call, whose expansion is called off at first and ranked later.
theorem expand_finishes_retried :
    let a : Advisers Unit :=
      ⟨.lexical, fun _ _ _ => some ⟨['f'], 3, 0, 4⟩, fun _ _ _ _ => .known [⟨⟨['a']⟩, 7⟩]⟩
    let s : CallerSettings := ⟨1, 3, 0⟩
    let fs : Files := ⟨.dir [(['a'], .file .empty)], []⟩
    let ctx : ExpansionContext := ⟨[], none, []⟩
    let n : CallerNode := .root ⟨['a']⟩ 5
    let w := (expand a s fs ctx true n ⟨.empty, .new ⟨['.']⟩ Settings.default.search, ()⟩).2
    Reachable s w ∧ w.cache.get? n.key = none ∧
      (expand a s fs ctx false n w).2.cache.get? n.key ≠ none := by
  intro a s fs ctx n w
  have r : Reachable s w := .expand a fs ctx true n <| .initial _ ()
  have ⟨_, finished, _⟩ := expand_finishes a fs ctx false n r
  have hc : calls a s fs ctx false n w =
    [.rank (ctx.request [⟨⟨['a']⟩, 7, ['f'], []⟩])] := rfl
  refine ⟨r, rfl, ?_⟩
  apply ((finished rfl).added n.key rfl).mpr
  exact ⟨rfl, _, _, hc ▸ List.mem_singleton_self _, rfl⟩

end Expansion

end LogOrigin
