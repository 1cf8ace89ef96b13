-- Tokens by which work can be called off. All copies of a token are cancelled together.

namespace LogOrigin

structure CancellationToken where
  number : Nat
  deriving DecidableEq

-- The number of tokens that have been issued, and the tokens that have been cancelled.
structure Cancellations where
  issued    : Nat
  cancelled : List CancellationToken
  deriving DecidableEq

namespace Cancellations

def empty : Cancellations := ⟨0, []⟩

def issue (c : Cancellations) : CancellationToken × Cancellations :=
  (⟨c.issued⟩, { c with issued := c.issued + 1 })

def cancel (c : Cancellations) (t : CancellationToken) : Cancellations :=
  { c with cancelled := t :: c.cancelled }

def isCancelled (c : Cancellations) (t : CancellationToken) : Bool :=
  c.cancelled.contains t

@[simp]
theorem isCancelled_cancel (c : Cancellations) (t u : CancellationToken) :
    (c.cancel t).isCancelled u = (decide (u = t) || c.isCancelled u) := by
  simp [isCancelled, cancel]

@[simp]
theorem isCancelled_issue (c : Cancellations) (t : CancellationToken) :
    c.issue.2.isCancelled t = c.isCancelled t :=
  rfl

end Cancellations

end LogOrigin
