import LogOrigin.Proofs.Callers.Clients

-- Clients that expand the same place at the same time all come to the node of a lone expansion,
-- whatever the order of their steps, and among them the oracle is asked at most once.

namespace LogOrigin.Expansion

open Hydration

variable {σ : Type} {N : Nat} {x : Attempt σ} {s : CallerSettings} {y : Clients σ N} {i j : Fin N}
variable {p : Phase} {w : Surroundings σ}

namespace Attempt

-- A client that has nothing to do with the guard.
def Free (x : Attempt σ) (s : CallerSettings) (p : Phase) : Prop :=
  p = .waiting ∨ x.Served s p

-- Nobody loads, or exactly one client does.
inductive Ordered (x : Attempt σ) (s : CallerSettings) (y : Clients σ N) : Prop where
  | resting : x.Rests s y.shared → (∀ i, x.Free s (y.phase i)) → Ordered x s y
  | busy (i : Fin N) :
    x.Loads s (y.phase i) y.shared → (∀ j, j ≠ i → x.Free s (y.phase j)) → Ordered x s y

theorem step_eq (h : x.advance s y.shared (y.phase i) = (p, w)) :
    x.step s y i = ⟨w, Function.update y.phase i p⟩ := by
  rw [step, h]

theorem Rests.memory (h : x.Rests s w) :
    w.memory = x.before.memory ∨ w.memory = (x.outcome s).2.memory :=
  h.imp (congrArg _) (congrArg _)

-- The oracle has no part in the end of a load.
theorem memory_loaded (x : Attempt σ) (s : CallerSettings) (w : Surroundings σ) (guard : LoadGuard)
    (result : Except Failure Outcome) :
    (x.advance s w (.loaded guard result)).2.memory = w.memory := by
  rcases result with (_ | _) | (_ | _) <;> rfl

theorem Loads.memory (hx : x.Shareable) (h : x.Loads s p w) :
    w.memory = x.before.memory ∨ w.memory = (x.outcome s).2.memory := by
  cases h
  case loading hv _    => exact hv.memory
  case loaded hv hk hc =>
    have ⟨_, h⟩ := advance_loaded hx <| .loaded hv hk hc
    exact .inr <| h ▸ (memory_loaded ..).symm

namespace Ordered

theorem started (x : Attempt σ) (s : CallerSettings) : x.Ordered s (x.started (N := N)) :=
  .resting (.inl rfl) fun _ => .inl rfl

-- The guard is with the client of the last step.
theorem held (hl : x.Loads s p w) (hf : ∀ j, j ≠ i → x.Free s (y.phase j)) :
    x.Ordered s ⟨w, Function.update y.phase i p⟩ := by
  apply busy i
  case a => simpa using hl
  case a =>
    intro j hj
    simpa [hj] using hf j hj

-- Nobody has the guard after the last step.
theorem freed (hr : x.Rests s w) (hp : x.Served s p) (hf : ∀ j, j ≠ i → x.Free s (y.phase j)) :
    x.Ordered s ⟨w, Function.update y.phase i p⟩ :=
  .resting hr <| (Function.forall_update_iff _ fun _ => x.Free s).mpr ⟨.inr hp, hf⟩

theorem step_resting (hx : x.Shareable) (hr : x.Rests s y.shared)
    (hf : ∀ j, x.Free s (y.phase j)) (i : Fin N) : x.Ordered s (x.step s y i) := by
  rcases hs : x.advance s y.shared (y.phase i) with ⟨p, w⟩
  rw [step_eq hs]
  cases hf i
  case inl hi =>
    have h := advance_waiting hx hr
    rw [← hi, hs] at h
    cases h
    case inl h =>
      obtain ⟨hp, rfl⟩ := h
      exact freed hr hp fun j _ => hf j
    case inr h => exact held h fun j _ => hf j
  case inr hi =>
    have h := hi.advance <| hr.get?_ne hx
    rw [hs] at h
    obtain ⟨hp, rfl⟩ := h
    exact freed hr hp fun j _ => hf j

theorem step_owner (hx : x.Shareable) (hl : x.Loads s (y.phase i) y.shared)
    (hf : ∀ j, j ≠ i → x.Free s (y.phase j)) : x.Ordered s (x.step s y i) := by
  rcases hs : x.advance s y.shared (y.phase i) with ⟨p, w⟩
  rw [step_eq hs]
  have h := hl.advance hx
  rw [hs] at h
  cases h
  case inl h => exact held h hf
  case inr h => exact freed (.inr h.2) h.1 hf

theorem step_other (hx : x.Shareable) (hl : x.Loads s (y.phase j) y.shared)
    (hf : ∀ i, i ≠ j → x.Free s (y.phase i)) (hi : i ≠ j) : x.Ordered s (x.step s y i) := by
  rcases hs : x.advance s y.shared (y.phase i) with ⟨p, w⟩
  rw [step_eq hs]
  have : x.Free s p ∧ w = y.shared := by
    cases hf i hi
    case inl hw =>
      rw [hw, advance_waiting_busy hl.slot?] at hs
      cases hs
      exact ⟨.inl rfl, rfl⟩
    case inr hw =>
      have h := hw.advance <| hl.get?_ne hx
      rw [hs] at h
      exact ⟨.inr h.1, h.2⟩
  obtain ⟨hp, rfl⟩ := this
  apply busy j
  case a => simpa [hi.symm] using hl
  case a =>
    exact (Function.forall_update_iff _ fun k p => k ≠ j → x.Free s p).mpr
      ⟨fun _ => hp, fun k _ => hf k⟩

theorem step (hx : x.Shareable) (o : x.Ordered s y) (i : Fin N) : x.Ordered s (x.step s y i) := by
  cases o
  case resting hr hf => exact step_resting hx hr hf i
  case busy j hl hf  =>
    by_cases hi : i = j
    case pos => exact hi ▸ step_owner hx hl hf
    case neg => exact step_other hx hl hf hi

theorem after (hx : x.Shareable) (o : x.Ordered s y) (turns : List (Fin N)) :
    x.Ordered s (x.after s y turns) := by
  induction turns generalizing y
  case nil          => exact o
  case cons i _ hi  => exact hi <| o.step hx i

theorem memory (hx : x.Shareable) (o : x.Ordered s y) :
    y.shared.memory = x.before.memory ∨ y.shared.memory = (x.outcome s).2.memory := by
  cases o
  case resting hr _ => exact hr.memory
  case busy hl _    => exact hl.memory hx

theorem finished {n : CallerNode} (o : x.Ordered s y) (hi : y.phase i = .finished n) :
    n = (x.outcome s).1 := by
  have free (h : x.Free s (y.phase i)) : n = (x.outcome s).1 := by
    rw [hi] at h
    cases h
    case inl h => nomatch h
    case inr h => cases h; rfl
  cases o
  case resting hf  => exact free <| hf i
  case busy j hl hf =>
    by_cases hj : i = j
    case pos =>
      rw [← hj, hi] at hl
      nomatch hl
    case neg => exact free <| hf i hj

end Ordered

namespace CanFinish

end CanFinish

end Attempt

end LogOrigin.Expansion
