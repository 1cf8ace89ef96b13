import LogOrigin.Callers.Expansion
import LogOrigin.Proofs.Cache.Operations
import LogOrigin.Proofs.Search.Repository

-- The ways in which an expansion can end, each with all that it changes.

namespace LogOrigin

-- The same advisers, who write down what they are asked.
def Advisers.logged {σ : Type} (a : Advisers σ) : Advisers (σ × List Oracle.Call) :=
  ⟨a.oracle.logged, a.symbols⟩

namespace Expansion

variable {σ : Type} {a : Advisers σ} {s : CallerSettings} {fs : Files} {ctx : ExpansionContext}
variable {cancelled : Bool} {n : CallerNode} {w : Surroundings σ}

-- The questions that an expansion asks the oracle, the latest one first.
def calls (a : Advisers σ) (s : CallerSettings) (fs : Files) (ctx : ExpansionContext)
    (cancelled : Bool) (n : CallerNode) (w : Surroundings σ) : List Oracle.Call :=
  (expand a.logged s fs ctx cancelled n ⟨w.cache, w.resolver, w.memory, []⟩).2.memory.2

section Gathering

variable {i : CallerInfo} {r r' : Resolver}

theorem usages_error {file : FilePath} {symbol : Symbol} {e : Failure}
    (h : usages a fs file symbol r = (.error e, r')) : e = .file (.missingRoot r.root) := by
  have ofText {name : Text} (h : usages.ofText fs name r = (.error e, r')) :
      e = .file (.missingRoot r.root) := by
    unfold usages.ofText at h
    split at h
    case h_1    => cases h
    case h_2 hs =>
      cases h
      exact Resolver.sources_error <| congrArg Prod.fst hs
  unfold usages at h
  split at h
  case h_1 => cases h
  case h_2 => exact ofText h
  case h_3 => exact ofText h

-- What the search for calls can come to. It fails by itself only because of a file, and there is
-- something to rank only if it has not been called off.
theorem gather_cases (a : Advisers σ) (s : CallerSettings) (fs : Files) (cancelled : Bool)
    (i : CallerInfo) (r : Resolver) :
    (∃ e, (gather a s fs cancelled i r).1 = .error (.file e)) ∨
    (cancelled = true ∧ (gather a s fs cancelled i r).1 = .error .cancelled) ∨
    (∃ l, (gather a s fs cancelled i r).1 = .ok (.callers l)) ∨
    (cancelled = false ∧ ∃ l, l ≠ [] ∧ (gather a s fs cancelled i r).1 = .ok (.candidates l)) := by
  unfold gather
  split
  case h_1 e _ => exact .inl ⟨e, rfl⟩
  case h_2 =>
    split
    case h_1 => exact .inr <| .inr <| .inl ⟨[], rfl⟩
    case h_2 =>
      split
      case h_1 hu => exact .inl ⟨_, congrArg _ <| usages_error hu⟩
      case h_2 =>
        split
        case isTrue hc  => exact .inr <| .inl ⟨hc, rfl⟩
        case isFalse hc =>
          have hc := Bool.eq_false_iff.mpr hc
          split
          case h_1    => exact .inr <| .inr <| .inl ⟨_, rfl⟩
          case h_2 hl => exact .inr <| .inr <| .inr ⟨hc, _, hl, rfl⟩

theorem gather_cancelled (h : gather a s fs cancelled i r = (.error .cancelled, r')) :
    cancelled = true := by
  have hc := gather_cases a s fs cancelled i r
  simp only [h] at hc
  rcases hc with ⟨_, he⟩ | ⟨hc, _⟩ | ⟨_, he⟩ | ⟨_, _, _, he⟩
  case inr.inl => exact hc
  all_goals cases he

theorem gather_candidates {l : List CallCandidate}
    (h : gather a s fs cancelled i r = (.ok (.candidates l), r')) : cancelled = false ∧ l ≠ [] := by
  have hc := gather_cases a s fs cancelled i r
  simp only [h] at hc
  rcases hc with ⟨_, he⟩ | ⟨_, he⟩ | ⟨_, he⟩ | ⟨hc, _, hl, he⟩
  case inr.inr.inr =>
    cases he
    exact ⟨hc, hl⟩
  all_goals cases he

end Gathering

theorem expand_expanded (h : n.isExpanded = true) : expand a s fs ctx cancelled n w = (n, w) := by
  simp [expand, h]

section Unexpanded

variable {l : List CallerNode} {candidates : List CallCandidate} {ranked : List RankedCall}
variable {e : Failure} {r : Resolver} {m : σ}

theorem expand_known (h : n.isExpanded = false) (hk : w.cache.get? n.key = some l) :
    expand a s fs ctx cancelled n w =
      (.node n.info false (some (Hydration.hydrate w.cache s.maxHydrateDepth n.key l)), w) := by
  have hc := CallerCache.claim_ready <| CallerCache.get?_eq_some_iff.mp hk
  simp [expand, h, children, hc]

theorem expand_busy (h : n.isExpanded = false) (hk : w.cache.slot? n.key = some .loading) :
    expand a s fs ctx cancelled n w = (.node n.info false none, w) := by
  simp [expand, h, children, CallerCache.claim_loading hk]

-- A place that nobody has claimed is loaded by the expansion itself.
theorem expand_absent (h : n.isExpanded = false) (hk : w.cache.slot? n.key = none) :
    expand a s fs ctx cancelled n w =
      let w' := { w with cache := w.cache.set n.key .loading }
      let (children, w') := load a s fs ctx cancelled n.info ⟨n.key, w.cache.epoch⟩ w'
      (.node n.info false children, w') := by
  simp [expand, h, children, CallerCache.claim_absent hk]

theorem expand_failed (h : n.isExpanded = false) (hk : w.cache.slot? n.key = none)
    (hg : gather a s fs cancelled n.info w.resolver = (.error e, r)) :
    expand a s fs ctx cancelled n w =
      (.node n.info false (if e = .cancelled then none else some []),
        { w with resolver := r }) := by
  rw [expand_absent h hk]
  cases e <;> simp [load, compute, hg, CallerCache.release_claim hk]

theorem expand_callers (h : n.isExpanded = false) (hk : w.cache.slot? n.key = none)
    (hg : gather a s fs cancelled n.info w.resolver = (.ok (.callers l), r)) :
    expand a s fs ctx cancelled n w =
      (.node n.info false (some (Hydration.hydrate w.cache s.maxHydrateDepth n.key l)),
        { w with resolver := r }) := by
  rw [expand_absent h hk]
  simp [load, compute, hg, CallerCache.release_claim hk]

theorem expand_unranked (h : n.isExpanded = false) (hk : w.cache.slot? n.key = none)
    (hg : gather a s fs cancelled n.info w.resolver = (.ok (.candidates candidates), r))
    (ho : a.oracle.rank (ctx.request candidates) w.memory = (.error e, m)) :
    expand a s fs ctx cancelled n w =
      (.node n.info false (some <|
          Hydration.hydrate w.cache s.maxHydrateDepth n.key (inOrder candidates)),
        ⟨w.cache, r, m⟩) := by
  rw [expand_absent h hk]
  simp [load, compute, hg, rank, ho, CallerCache.release_claim hk]

-- What a place is known to have as callers once an oracle has ranked them.
def stored (candidates : List CallCandidate) (ranked : List RankedCall) : List CallerNode :=
  (Ranking.apply candidates ranked).map CallerNode.shallow

theorem expand_ranked (h : n.isExpanded = false) (hk : w.cache.slot? n.key = none)
    (hg : gather a s fs cancelled n.info w.resolver = (.ok (.candidates candidates), r))
    (ho : a.oracle.rank (ctx.request candidates) w.memory = (.ok ranked, m)) :
    expand a s fs ctx cancelled n w =
      let c := w.cache.set n.key (.ready (stored candidates ranked))
      (.node n.info false (some <|
          Hydration.hydrate c s.maxHydrateDepth n.key (stored candidates ranked)), ⟨c, r, m⟩) := by
  rw [expand_absent h hk]
  simp [load, compute, hg, rank, ho, CallerCache.complete_claim, stored]

end Unexpanded

-- How the expansion of a node without children can end: with the children, if it gets any, with
-- what is left behind, and with the questions to the oracle.
inductive Ends (a : Advisers σ) (s : CallerSettings) (fs : Files) (ctx : ExpansionContext)
    (cancelled : Bool) (n : CallerNode) (w : Surroundings σ) :
    Option (List CallerNode) → Surroundings σ → List Oracle.Call → Prop where
  | known {l} :
    w.cache.get? n.key = some l →
    Ends a s fs ctx cancelled n w
      (some (Hydration.hydrate w.cache s.maxHydrateDepth n.key l)) w []
  | busy :
    w.cache.slot? n.key = some .loading →
    Ends a s fs ctx cancelled n w none w []
  | calledOff {r} :
    w.cache.slot? n.key = none →
    gather a s fs cancelled n.info w.resolver = (.error .cancelled, r) →
    Ends a s fs ctx cancelled n w none { w with resolver := r } []
  | failed {e r} :
    w.cache.slot? n.key = none →
    gather a s fs cancelled n.info w.resolver = (.error e, r) →
    e ≠ .cancelled →
    Ends a s fs ctx cancelled n w (some []) { w with resolver := r } []
  | callers {l r} :
    w.cache.slot? n.key = none →
    gather a s fs cancelled n.info w.resolver = (.ok (.callers l), r) →
    Ends a s fs ctx cancelled n w
      (some (Hydration.hydrate w.cache s.maxHydrateDepth n.key l)) { w with resolver := r } []
  | unranked {l r e m} :
    w.cache.slot? n.key = none →
    gather a s fs cancelled n.info w.resolver = (.ok (.candidates l), r) →
    a.oracle.rank (ctx.request l) w.memory = (.error e, m) →
    Ends a s fs ctx cancelled n w
      (some (Hydration.hydrate w.cache s.maxHydrateDepth n.key (inOrder l))) ⟨w.cache, r, m⟩
      [.rank (ctx.request l)]
  | ranked {l r ranked m} :
    w.cache.slot? n.key = none →
    gather a s fs cancelled n.info w.resolver = (.ok (.candidates l), r) →
    a.oracle.rank (ctx.request l) w.memory = (.ok ranked, m) →
    Ends a s fs ctx cancelled n w
      (some (Hydration.hydrate (w.cache.set n.key (.ready (stored l ranked))) s.maxHydrateDepth
        n.key (stored l ranked)))
      ⟨w.cache.set n.key (.ready (stored l ranked)), r, m⟩
      [.rank (ctx.request l)]

-- To write down a question changes nothing about the answer.
theorem rank_logged {request : RankRequest} {m m' : σ} {answer : Except Failure (List RankedCall)}
    (h : a.oracle.rank request m = (answer, m')) :
    a.logged.oracle.rank request (m, []) = (answer, m', [.rank request]) := by
  simp [Advisers.logged, Oracle.logged, h]

-- Every expansion of a node without children ends in one of the ways.
theorem expand_ends (a : Advisers σ) (s : CallerSettings) (fs : Files) (ctx : ExpansionContext)
    (cancelled : Bool) (w : Surroundings σ) (h : n.isExpanded = false) :
    ∃ children w', expand a s fs ctx cancelled n w = (.node n.info false children, w') ∧
      Ends a s fs ctx cancelled n w children w' (calls a s fs ctx cancelled n w) := by
  let v : Surroundings (σ × List Oracle.Call) := ⟨w.cache, w.resolver, w.memory, []⟩
  have hv : calls a s fs ctx cancelled n w =
      (expand a.logged s fs ctx cancelled n v).2.memory.2 := rfl
  cases hk : w.cache.slot? n.key
  case some slot =>
    cases slot
    case loading =>
      rw [hv, expand_busy (w := v) h hk]
      exact ⟨_, _, expand_busy h hk, .busy hk⟩
    case ready l =>
      have hk := CallerCache.get?_eq_some_iff.mpr hk
      rw [hv, expand_known (w := v) h hk]
      exact ⟨_, _, expand_known h hk, .known hk⟩
  case none =>
    -- A log changes nothing about what is found, as the oracle has no part in it.
    have hl : gather a.logged s fs cancelled n.info v.resolver =
      gather a s fs cancelled n.info w.resolver := rfl
    match hg : gather a s fs cancelled n.info w.resolver with
    | (.error e, r) =>
      refine ⟨_, _, expand_failed h hk hg, ?_⟩
      rw [hv, expand_failed (w := v) h hk (hl.trans hg)]
      split
      case isTrue he  => exact .calledOff hk <| he ▸ hg
      case isFalse he => exact .failed hk hg he
    | (.ok (.callers l), r) =>
      refine ⟨_, _, expand_callers h hk hg, ?_⟩
      rw [hv, expand_callers (w := v) h hk (hl.trans hg)]
      exact .callers hk hg
    | (.ok (.candidates l), r) =>
      match ho : a.oracle.rank (ctx.request l) w.memory with
      | (.error e, m) =>
        refine ⟨_, _, expand_unranked h hk hg ho, ?_⟩
        rw [hv, expand_unranked (w := v) h hk (hl.trans hg) (rank_logged ho)]
        exact .unranked hk hg ho
      | (.ok ranked, m) =>
        refine ⟨_, _, expand_ranked h hk hg ho, ?_⟩
        rw [hv, expand_ranked (w := v) h hk (hl.trans hg) (rank_logged ho)]
        exact .ranked hk hg ho

end Expansion

end LogOrigin
