import LogOrigin.Proofs.Callers.Finishing
import LogOrigin.Proofs.Callers.Tree

-- A tree in which one node is replaced. At all other positions, except for those below it, the tree
-- looks the same as before.

namespace LogOrigin

namespace CallerNode

variable {n m new : CallerNode} {way q : List Nat} {i : Nat}

-- What a node says itself, whether it is expanded, and how many children it has then.
def face (n : CallerNode) : CallerInfo × Bool × Option Nat :=
  (n.info, n.loading, n.children.map List.length)

-- A face shows whether a node is expanded.
theorem isExpanded_of_face (h : m.face = n.face) : m.isExpanded = n.isExpanded := by
  have h := congrArg (·.2.2.isSome) h
  simpa [face, isExpanded] using h

-- A replacement further down happens in one of the children, or not at all.
theorem replaceAt_cons_cases (n : CallerNode) (i : Nat) (way : List Nat) (new : CallerNode) :
    (n.replaceAt (i :: way) new = n ∧ n.descendant? (i :: way) = none) ∨
    ∃ kids k, n.children = some kids ∧ kids[i]? = some k ∧
      n.replaceAt (i :: way) new = n.withChildren (some (kids.set i (k.replaceAt way new))) := by
  cases hc : n.children
  case none      => exact .inl <| by simp [replaceAt, descendant?, hc]
  case some kids =>
    cases hk : kids[i]?
    case none   => exact .inl <| by simp [replaceAt, descendant?, hc, hk]
    case some k => exact .inr ⟨kids, k, rfl, hk, by simp [replaceAt, hc, hk]⟩

theorem face_replaceAt_cons (n : CallerNode) (i : Nat) (way : List Nat) (new : CallerNode) :
    (n.replaceAt (i :: way) new).face = n.face := by
  rcases n.replaceAt_cons_cases i way new with ⟨h, _⟩ | ⟨kids, k, hc, _, h⟩
  case inl => rw [h]
  case inr =>
    rw [h, face, face, hc]
    simp [withChildren, info, loading, children]

-- Where there has been a node there is the new one.
theorem descendant?_replaceAt (h : n.descendant? way = some m) (new : CallerNode) :
    (n.replaceAt way new).descendant? way = some new := by
  induction way generalizing n
  case nil            => rfl
  case cons i way hi =>
    rcases n.replaceAt_cons_cases i way new with ⟨_, h'⟩ | ⟨kids, k, hc, hk, he⟩
    case inl => cases h.symm.trans h'
    case inr =>
      obtain ⟨kids', k', hc', hk', hm⟩ := descendant?_cons_iff.mp h
      obtain rfl := Option.some.inj <| hc.symm.trans hc'
      obtain rfl := Option.some.inj <| hk.symm.trans hk'
      obtain ⟨hlt, _⟩ := List.getElem?_eq_some_iff.mp hk
      exact descendant?_cons_iff.mpr ⟨_, _, he ▸ rfl, List.getElem?_set_self hlt, hi hm⟩

-- By induction on the way down to the node: the first step of another position leads to the same
-- child, into which the replacement goes as well, or to one that it leaves alone.
theorem face_descendant?_replaceAt (h : ¬way <+: q) (new : CallerNode) :
    ((n.replaceAt way new).descendant? q).map face = (n.descendant? q).map face := by
  induction way generalizing n q
  case nil            => exact absurd q.nil_prefix h
  case cons i way hi =>
    cases q
    case nil      => exact congrArg some <| n.face_replaceAt_cons i way new
    case cons j q =>
      rcases n.replaceAt_cons_cases i way new with ⟨he, _⟩ | ⟨kids, k, hc, hk, he⟩
      case inl => rw [he]
      case inr =>
        have hkids : (n.withChildren (some (kids.set i (k.replaceAt way new)))).children =
          some (kids.set i (k.replaceAt way new)) := rfl
        rw [he, descendant?, descendant?, hkids, hc, Option.bind_some, Option.bind_some]
        by_cases hij : i = j
        case pos =>
          obtain ⟨hlt, _⟩ := List.getElem?_eq_some_iff.mp hk
          have hq : ¬way <+: q := fun hp => h <| List.cons_prefix_cons.mpr ⟨hij, hp⟩
          rw [← hij, List.getElem?_set_self hlt, hk, Option.bind_some, Option.bind_some, hi hq]
        case neg => rw [List.getElem?_set_ne hij]

-- Nobody is looking for the callers of any node.
def Idle (n : CallerNode) : Prop :=
  n.Every fun _ loading => loading = false

theorem idle_ofInfo (i : CallerInfo) : (ofInfo i).Idle :=
  every_ofInfo rfl

theorem Idle.replaceAt (h : n.Idle) (hn : new.Idle) (way : List Nat) : (n.replaceAt way new).Idle :=
  Every.replaceAt h hn way

theorem Idle.loading (h : n.Idle) (hm : n.descendant? way = some m) : m.loading = false :=
  h way m hm

end CallerNode

namespace Expansion

variable {σ : Type} {a : Advisers σ} {s : CallerSettings} {fs : Files} {ctx : ExpansionContext}
variable {cancelled : Bool} {n : CallerNode} {w w' : Surroundings σ}
variable {children : Option (List CallerNode)} {log : List Oracle.Call}

theorem idle_hydrate (c : CallerCache) (bound : Nat) (parent : CallerKey) (l : List CallerNode) :
    ∀ n ∈ Hydration.hydrate c bound parent l, n.Idle :=
  Hydration.every_hydrate (fun _ _ _ _ _ _ _ _ => rfl) fun _ _ => rfl

theorem Ends.idle (x : Ends a s fs ctx cancelled n w children w' log) :
    ∀ kids, children = some kids → ∀ k ∈ kids, k.Idle := by
  cases x
  case busy | calledOff => nofun
  case failed           => rintro _ ⟨⟩ _ ⟨⟩
  all_goals
    rintro _ ⟨⟩
    exact idle_hydrate _ _ _ _

-- A node is idle again as soon as its expansion has come to an end.
theorem idle_expand (a : Advisers σ) (s : CallerSettings) (fs : Files) (ctx : ExpansionContext)
    (cancelled : Bool) (w : Surroundings σ) (h : n.Idle) :
    (expand a s fs ctx cancelled n w).1.Idle := by
  cases hn : n.isExpanded
  case true  => rwa [expand_expanded hn]
  case false =>
    obtain ⟨children, _, he, x⟩ := expand_ends a s fs ctx cancelled w hn
    rw [he]
    exact CallerNode.every_iff.mpr ⟨rfl, x.idle⟩

theorem loading_expand (a : Advisers σ) (s : CallerSettings) (fs : Files) (ctx : ExpansionContext)
    (cancelled : Bool) (w : Surroundings σ) (h : n.loading = false) :
    (expand a s fs ctx cancelled n w).1.loading = false := by
  unfold expand
  split
  case isTrue  => exact h
  case isFalse => rfl

-- Only a node whose expansion is called off stays unexpanded.
theorem isExpanded_expand (a : Advisers σ) (s : CallerSettings) (fs : Files)
    (ctx : ExpansionContext) (n : CallerNode) (h : w.cache.Settled) :
    (expand a s fs ctx false n w).1.isExpanded = true := by
  cases hn : n.isExpanded
  case true  => rwa [expand_expanded hn]
  case false =>
    obtain ⟨children, _, he, x⟩ := expand_ends a s fs ctx false w hn
    rw [he]
    by_contra hx
    cases (x.finished h).unexpanded <| Bool.eq_false_iff.mpr hx

end Expansion

end LogOrigin
