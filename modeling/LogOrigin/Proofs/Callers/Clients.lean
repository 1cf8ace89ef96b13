import LogOrigin.Proofs.Callers.Repetition
import Mathlib.Logic.Function.Basic

-- Clients that expand the same place at the same time, each for a node of its own. Every access to
-- the cache is a step, and the steps of the clients come in any order: a look at the place, the end
-- of a load, and each look-up for the hydration of the children. What is done for a load is one
-- step, for only one client at a time does it and nothing of it is seen in the cache. A client that
-- finds the place being loaded looks again at its next turn, and does not give up.

namespace LogOrigin.Expansion

open Hydration

-- How far a client has come.
inductive Phase where
  | waiting
  | loading (guard : LoadGuard)
  | loaded (guard : LoadGuard) (result : Except Failure Outcome)
  | hydrating (visited : List Visit) (queue : List Pending)
  | finished (n : CallerNode)

structure Clients (σ : Type) (N : Nat) where
  shared : Surroundings σ
  phase  : Fin N → Phase

variable {σ : Type} {N : Nat}

namespace Attempt

variable (x : Attempt σ) (s : CallerSettings)

def hydration (children : List CallerNode) : Phase :=
  .hydrating [] (children.map (start x.node.key))

def finish (children : Option (List CallerNode)) : Phase :=
  .finished (.node x.node.info false children)

-- The next step of a client.
def advance (w : Surroundings σ) : Phase → Phase × Surroundings σ
  | .waiting =>
    match w.cache.claim x.node.key with
    | (.ready l, c)     => (x.hydration l, { w with cache := c })
    | (.busy, c)        => (.waiting, { w with cache := c })
    | (.owner guard, c) => (.loading guard, { w with cache := c })
  | .loading guard =>
    let (result, r, m) := compute x.advisers s x.files x.context x.cancelled x.node.info
      w.resolver w.memory
    (.loaded guard result, ⟨w.cache, r, m⟩)
  | .loaded guard (.ok (.ranked l)) =>
    let (stored, c) := w.cache.complete guard l
    (x.hydration stored, { w with cache := c })
  | .loaded guard (.ok (.unranked l)) =>
    (x.hydration l, { w with cache := w.cache.release guard })
  | .loaded guard (.error .cancelled) =>
    (x.finish none, { w with cache := w.cache.release guard })
  | .loaded guard (.error _) =>
    (x.finish (some []), { w with cache := w.cache.release guard })
  | .hydrating visited [] => (x.finish (some (assemble visited)), w)
  | .hydrating visited (p :: queue) =>
    match kids? w.cache s.maxHydrateDepth p with
    | none   => (.hydrating (visited ++ [⟨p.info, none⟩]) queue, w)
    | some l => (.hydrating (visited ++ [⟨p.info, some l.length⟩]) (queue ++ l), w)
  | .finished n => (.finished n, w)

def step (y : Clients σ N) (i : Fin N) : Clients σ N :=
  let (p, w) := x.advance s y.shared (y.phase i)
  ⟨w, Function.update y.phase i p⟩

-- The clients after some steps, by the client whose turn it is each time.
def after (y : Clients σ N) (turns : List (Fin N)) : Clients σ N :=
  turns.foldl (x.step s) y

def started : Clients σ N :=
  ⟨x.before, fun _ => .waiting⟩

end Attempt

namespace Attempt

variable {x : Attempt σ} {s : CallerSettings} {w : Surroundings σ} {p : Phase}

-- What the clients share while nobody loads: it is as it was at first, or as one expansion leaves
-- it.
def Rests (x : Attempt σ) (s : CallerSettings) (w : Surroundings σ) : Prop :=
  w = x.before ∨ w = (x.outcome s).2

-- A client that has got its children, and is going to have the node of a lone expansion.
inductive Served (x : Attempt σ) (s : CallerSettings) : Phase → Prop where
  | hydrating {visited : List Visit} {queue : List Pending} :
    (∀ p ∈ queue, x.node.key ∈ p.path) →
    (x.outcome s).1 = .node x.node.info false
      (some (assemble (visited ++ visits x.before.cache s.maxHydrateDepth queue))) →
    Served x s (.hydrating visited queue)
  | finished :
    Served x s (.finished (x.outcome s).1)

-- A client that has the guard, with what is shared meanwhile.
inductive Loads (x : Attempt σ) (s : CallerSettings) : Phase → Surroundings σ → Prop where
  | loading {v : Surroundings σ} :
    x.Rests s v → v.cache.slot? x.node.key = none →
    Loads x s (.loading ⟨x.node.key, v.cache.epoch⟩)
      { v with cache := v.cache.set x.node.key .loading }
  | loaded {v : Surroundings σ} {result : Except Failure Outcome} {r : Resolver} {m : σ} :
    x.Rests s v → v.cache.slot? x.node.key = none →
    compute x.advisers s x.files x.context x.cancelled x.node.info v.resolver v.memory =
      (result, r, m) →
    Loads x s (.loaded ⟨x.node.key, v.cache.epoch⟩ result)
      ⟨v.cache.set x.node.key .loading, r, m⟩

-- What the clients can rely on: nobody has expanded the node, nobody was loading at first, and the
-- oracle ranks whatever it is asked.
structure Shareable (x : Attempt σ) : Prop where
  unexpanded : x.node.isExpanded = false
  settled    : x.before.cache.Settled
  answers    : Answers x.advisers

namespace Rests

theorem outcome (hx : x.Shareable) (hw : x.Rests s w) :
    expand x.advisers s x.files x.context x.cancelled x.node w = x.outcome s := by
  cases hw
  case inl hw => rw [hw, Attempt.outcome]
  case inr hw =>
    rw [hw]
    exact expand_again hx.unexpanded hx.settled hx.answers

theorem settled (hx : x.Shareable) (hw : x.Rests s w) : w.cache.Settled := by
  cases hw
  case inl hw => exact hw ▸ hx.settled
  case inr hw => exact hw ▸ settled_expand _ _ _ _ _ _ hx.settled

theorem get?_ne (hx : x.Shareable) (hw : x.Rests s w) :
    ∀ k, k ≠ x.node.key → w.cache.get? k = x.before.cache.get? k := by
  intro k hk
  cases hw
  case inl hw => rw [hw]
  case inr hw =>
    have ⟨_, _, h⟩ := ends s hx.unexpanded
    rw [hw, h.get?_ne hk]

end Rests

namespace Loads

theorem slot? (h : x.Loads s p w) : w.cache.slot? x.node.key = some .loading := by
  cases h <;> exact CallerCache.slot?_set_self ..

theorem get?_ne (hx : x.Shareable) (h : x.Loads s p w) :
    ∀ k, k ≠ x.node.key → w.cache.get? k = x.before.cache.get? k := by
  intro k hk
  cases h
  case loading hv _ =>
    exact (CallerCache.get?_congr <| CallerCache.slot?_set_ne hk ..).trans <| hv.get?_ne hx k hk
  case loaded hv _ _ =>
    exact (CallerCache.get?_congr <| CallerCache.slot?_set_ne hk ..).trans <| hv.get?_ne hx k hk

end Loads

-- The children of a node, hydrated from a cache that agrees everywhere but at the place of the
-- node, are those of a lone expansion.
theorem served_hydration {c : CallerCache} {l : List CallerNode}
    (ho : (x.outcome s).1 = .node x.node.info false
      (some (hydrate c s.maxHydrateDepth x.node.key l)))
    (hw : ∀ k, k ≠ x.node.key → c.get? k = x.before.cache.get? k) :
    x.Served s (x.hydration l) := by
  apply Served.hydrating (path_start _ _)
  rw [ho, hydrate_congr hw, List.nil_append, hydrate]

theorem served_finish {children : Option (List CallerNode)}
    (ho : (x.outcome s).1 = .node x.node.info false children) : x.Served s (x.finish children) := by
  rw [finish, ← ho]
  exact .finished

-- Whatever happens meanwhile to the place of the node, a client that has its children goes on.
theorem Served.advance (h : x.Served s p)
    (hw : ∀ k, k ≠ x.node.key → w.cache.get? k = x.before.cache.get? k) :
    x.Served s (x.advance s w p).1 ∧ (x.advance s w p).2 = w := by
  cases h
  case finished => exact ⟨.finished, rfl⟩
  case hydrating visited queue hq ho =>
    cases queue
    case nil =>
      rw [visits, List.append_nil] at ho
      exact ⟨served_finish ho, rfl⟩
    case cons p queue =>
      have hp := hq p (List.mem_cons_self ..)
      have hq (q : Pending) (hm : q ∈ queue) := hq q (List.mem_cons_of_mem _ hm)
      have hk := kids?_congr s.maxHydrateDepth hw hp
      cases hl : kids? x.before.cache s.maxHydrateDepth p
      case none =>
        simp only [Attempt.advance, hk, hl, and_true]
        apply Served.hydrating hq
        rw [ho, visits_none hl, List.append_cons]
      case some l =>
        simp only [Attempt.advance, hk, hl, and_true]
        refine .hydrating ?_ ?_
        · intro q hm
          cases List.mem_append.mp hm
          case inl hm => exact hq q hm
          case inr hm => exact path_of_kids? hl hp q hm
        · rw [ho, visits_some hl, List.append_cons]

-- A client that waits in vain.
theorem advance_waiting_busy (hw : w.cache.slot? x.node.key = some .loading) :
    x.advance s w .waiting = (.waiting, w) := by
  simp [Attempt.advance, CallerCache.claim_loading hw]

-- A client that does not: it gets what is known, or the guard.
theorem advance_waiting (hx : x.Shareable) (hw : x.Rests s w) :
    (x.Served s (x.advance s w .waiting).1 ∧ (x.advance s w .waiting).2 = w) ∨
    x.Loads s (x.advance s w .waiting).1 (x.advance s w .waiting).2 := by
  cases hk : w.cache.slot? x.node.key
  case none =>
    simp only [Attempt.advance, CallerCache.claim_absent hk]
    exact .inr <| .loading hw hk
  case some slot =>
    cases slot
    case loading => exact absurd hk <| hw.settled hx _
    case ready l =>
      simp only [Attempt.advance, CallerCache.claim_ready hk, and_true]
      have ho := hw.outcome hx
      rw [expand_known hx.unexpanded <| CallerCache.get?_eq_some_iff.mpr hk] at ho
      exact .inl <| served_hydration (congrArg Prod.fst ho.symm) <| hw.get?_ne hx

-- The end of a load leaves everything as a lone expansion does.
theorem advance_loaded {guard : LoadGuard} {result : Except Failure Outcome} (hx : x.Shareable)
    (h : x.Loads s (.loaded guard result) w) :
    x.Served s (x.advance s w (.loaded guard result)).1 ∧
      (x.advance s w (.loaded guard result)).2 = (x.outcome s).2 := by
  cases h
  case loaded v r m hv hk hc =>
    have ho := hv.outcome hx
    rw [expand_absent hx.unexpanded hk] at ho
    simp only [load, hc] at ho
    cases result
    case ok outcome =>
      cases outcome
      case ranked l =>
        have hne k (h : k ≠ x.node.key) := (CallerCache.get?_congr <|
          CallerCache.slot?_set_ne h v.cache (.ready (l.map .shallow))).trans <| hv.get?_ne hx k h
        simp only [CallerCache.complete_claim] at ho
        simp only [Attempt.advance, CallerCache.complete_claim, ← ho, and_true]
        exact served_hydration (congrArg Prod.fst ho.symm) hne
      case unranked l =>
        simp only [CallerCache.release_claim hk] at ho
        simp only [Attempt.advance, CallerCache.release_claim hk, ← ho, and_true]
        exact served_hydration (congrArg Prod.fst ho.symm) <| hv.get?_ne hx
    case error e =>
      cases e
      all_goals
        simp only [CallerCache.release_claim hk] at ho
        simp only [Attempt.advance, CallerCache.release_claim hk, ← ho, and_true]
        exact served_finish <| congrArg Prod.fst ho.symm

-- A client with the guard goes on with it, or gives it up.
theorem Loads.advance (hx : x.Shareable) (h : x.Loads s p w) :
    x.Loads s (x.advance s w p).1 (x.advance s w p).2 ∨
    (x.Served s (x.advance s w p).1 ∧ (x.advance s w p).2 = (x.outcome s).2) := by
  cases h
  case loading hv hk   => exact .inl <| .loaded hv hk rfl
  case loaded hv hk hc => exact .inr <| advance_loaded hx <| .loaded hv hk hc

end Attempt

end LogOrigin.Expansion
