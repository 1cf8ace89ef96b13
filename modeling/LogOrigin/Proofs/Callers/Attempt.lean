import LogOrigin.Proofs.Callers.Finishing

-- Expansions as values: what one starts from, and what it leads to.

namespace LogOrigin.Expansion

variable {σ : Type}

-- An expansion with all that it starts from.
structure Attempt (σ : Type) where
  advisers  : Advisers σ
  files     : Files
  context   : ExpansionContext
  cancelled : Bool
  node      : CallerNode
  before    : Surroundings σ

namespace Attempt

def outcome (x : Attempt σ) (s : CallerSettings) : CallerNode × Surroundings σ :=
  expand x.advisers s x.files x.context x.cancelled x.node x.before

def calls (x : Attempt σ) (s : CallerSettings) : List Oracle.Call :=
  Expansion.calls x.advisers s x.files x.context x.cancelled x.node x.before

-- An oracle has ranked callers for the node.
def Ranked (x : Attempt σ) (s : CallerSettings) : Prop :=
  Succeeded x.advisers x.before.memory (x.calls s)

variable {x : Attempt σ} {s : CallerSettings}

theorem calls_expanded (hn : x.node.isExpanded = true) : x.calls s = [] := by
  rw [calls, Expansion.calls, expand_expanded hn]

theorem ends (s : CallerSettings) (hn : x.node.isExpanded = false) :
    ∃ children, (x.outcome s).1 = .node x.node.info false children ∧
      Ends x.advisers s x.files x.context x.cancelled x.node x.before children (x.outcome s).2
        (x.calls s) := by
  have ⟨children, w', he, hx⟩ :=
    expand_ends x.advisers s x.files x.context x.cancelled x.before hn
  rw [outcome, he]
  exact ⟨children, rfl, hx⟩

theorem length_calls_le (x : Attempt σ) (s : CallerSettings) : (x.calls s).length ≤ 1 := by
  cases hn : x.node.isExpanded
  case true => simp [calls_expanded hn]
  case false =>
    have ⟨_, _, hx⟩ := ends s hn
    exact hx.length_le

-- The same expansion with advisers who write down what they are asked.
def logged (x : Attempt σ) : Attempt (σ × List Oracle.Call) where
  advisers  := x.advisers.logged
  files     := x.files
  context   := x.context
  cancelled := x.cancelled
  node      := x.node
  before    := ⟨x.before.cache, x.before.resolver, x.before.memory, []⟩

end Attempt

end LogOrigin.Expansion
