import LogOrigin.Proofs.Callers.Repetition
import LogOrigin.Session

-- What a session carries with it from earlier logs: numbers that have grown, and tokens that were
-- cancelled. No operation looks at more than differences of these numbers, so each of them does the
-- same with a past as without one.

namespace LogOrigin

-- How often a cache was cleared, files were scanned, a log was loaded and a token was issued, and
-- which tokens were cancelled.
structure Past where
  epoch      : Nat
  scans      : Nat
  generation : Nat
  issued     : Nat
  cancelled  : List CancellationToken
  bounded    : ∀ t ∈ cancelled, t.number < issued

variable {p : Past}

def CancellationToken.after (t : CancellationToken) (p : Past) : CancellationToken :=
  ⟨p.issued + t.number⟩

theorem CancellationToken.after_inj {t u : CancellationToken} : t.after p = u.after p ↔ t = u := by
  obtain ⟨n⟩ := t
  obtain ⟨m⟩ := u
  simp [CancellationToken.after]

namespace Cancellations

variable {c : Cancellations} {t : CancellationToken}

def after (c : Cancellations) (p : Past) : Cancellations :=
  ⟨p.issued + c.issued, c.cancelled.map (·.after p) ++ p.cancelled⟩

-- The tokens of the past are older than all others.
theorem isCancelled_after (c : Cancellations) (p : Past) (t : CancellationToken) :
    (c.after p).isCancelled (t.after p) = c.isCancelled t := by
  have hp : t.after p ∉ p.cancelled :=
    fun h => Nat.not_lt_of_le (Nat.le_add_right ..) (p.bounded _ h)
  simp [isCancelled, after, hp, CancellationToken.after_inj]

theorem cancel_after (c : Cancellations) (p : Past) (t : CancellationToken) :
    (c.after p).cancel (t.after p) = (c.cancel t).after p :=
  rfl

theorem issue_after (c : Cancellations) (p : Past) :
    (c.after p).issue = (c.issue.1.after p, c.issue.2.after p) :=
  rfl

end Cancellations

namespace CallerCache

def after (c : CallerCache) (p : Past) : CallerCache :=
  { c with epoch := p.epoch + c.epoch }

end CallerCache

def LoadGuard.after (g : LoadGuard) (p : Past) : LoadGuard :=
  { g with epoch := p.epoch + g.epoch }

def Claim.after : Claim → Past → Claim
  | .owner g, p => .owner (g.after p)
  | claim, _    => claim

namespace CallerCache

theorem claim_after (c : CallerCache) (p : Past) (k : CallerKey) :
    (c.after p).claim k = ((c.claim k).1.after p, (c.claim k).2.after p) := by
  have hs : (c.after p).slot? k = c.slot? k := rfl
  unfold claim
  rw [hs]
  split <;> rfl

theorem complete_after (c : CallerCache) (p : Past) (g : LoadGuard) (l : List CallerNode) :
    (c.after p).complete (g.after p) l = ((c.complete g l).1, (c.complete g l).2.after p) := by
  have he : (g.after p).epoch = (c.after p).epoch ↔ g.epoch = c.epoch := Nat.add_left_cancel_iff
  unfold complete
  simp only [he]
  split <;> rfl

theorem release_after (c : CallerCache) (p : Past) (g : LoadGuard) :
    (c.after p).release (g.after p) = (c.release g).after p := by
  have he : (g.after p).epoch = (c.after p).epoch ↔ g.epoch = c.epoch := Nat.add_left_cancel_iff
  have hs : (c.after p).slot? (g.after p).key = c.slot? g.key := rfl
  unfold release
  simp only [he, hs]
  split
  case h_1 => split <;> rfl
  case h_2 => rfl

theorem hydrate_after (c : CallerCache) (p : Past) (bound : Nat) (k : CallerKey)
    (l : List CallerNode) :
    Hydration.hydrate (c.after p) bound k l = Hydration.hydrate c bound k l :=
  Hydration.hydrate_congr (c := c.after p) (d := c) (fun _ _ => rfl) l

end CallerCache

namespace Resolver

def after (r : Resolver) (p : Past) : Resolver :=
  { r with scans := p.scans + r.scans }

section Resolver

variable (r : Resolver) (p : Past) (fs : Files) (record : Record) (cancelled : Bool)

theorem sources_after : (r.after p).sources fs = ((r.sources fs).1, (r.sources fs).2.after p) := by
  simp only [sources, after]
  split
  case h_1 => rfl
  case h_2 => split <;> rfl

theorem search_after (text : Text) : (r.after p).search fs text cancelled =
    ((r.search fs text cancelled).1, (r.search fs text cancelled).2.after p) := by
  have hs : (r.after p).settings = r.settings := rfl
  simp only [search, hs, sources_after]
  split
  case isTrue  => rfl
  case isFalse =>
    obtain ⟨found, r'⟩ := r.sources fs
    cases found
    case error => rfl
    case ok    => cases cancelled <;> rfl

theorem firstMatch_after (l : List (Stage × Text)) : firstMatch fs cancelled l (r.after p) =
    ((firstMatch fs cancelled l r).1, (firstMatch fs cancelled l r).2.after p) := by
  induction l generalizing r
  case nil         => rfl
  case cons e l hi =>
    simp only [firstMatch, search_after]
    obtain ⟨found, r'⟩ := r.search fs e.2 cancelled
    rcases found with _ | _ | _
    case error   => rfl
    case ok.nil  => exact hi r'
    case ok.cons => rfl

theorem ofFileName_after : (r.after p).ofFileName fs record =
    ((r.ofFileName fs record).1, (r.ofFileName fs record).2.after p) := by
  have hr : (r.after p).root = r.root ∧ (r.after p).settings = r.settings := ⟨rfl, rfl⟩
  simp only [ofFileName, hr, sources_after]
  split
  case h_1 => rfl
  case h_2 =>
    obtain ⟨found, r'⟩ := r.sources fs
    cases found <;> rfl

theorem ofSources_after : (r.after p).ofSources fs record cancelled =
    ((r.ofSources fs record cancelled).1, (r.ofSources fs record cancelled).2.after p) := by
  simp only [ofSources, firstMatch_after]
  obtain ⟨found, r'⟩ := firstMatch fs cancelled (needles record) r
  rcases found with _ | _ | _
  case error   => rfl
  case ok.some => rfl
  case ok.none =>
    cases cancelled
    case false => exact r'.ofFileName_after p fs record
    case true  => rfl

theorem stages_after : (r.after p).stages fs record cancelled =
    ((r.stages fs record cancelled).1, (r.stages fs record cancelled).2.after p) := by
  have hr : (r.after p).root = r.root := rfl
  simp only [stages, hr, ofSources_after]
  split <;> rfl

theorem resolve_after : (r.after p).resolve fs record cancelled =
    ((r.resolve fs record cancelled).1, (r.resolve fs record cancelled).2.after p) := by
  simp only [resolve, stages_after]

theorem locate_after : (r.after p).locate fs record cancelled =
    ((r.locate fs record cancelled).1, (r.locate fs record cancelled).2.1,
      (r.locate fs record cancelled).2.2.after p) := by
  simp only [locate, resolve_after]

end Resolver

end Resolver

def Surroundings.after {σ : Type} (w : Surroundings σ) (p : Past) : Surroundings σ where
  cache    := w.cache.after p
  resolver := w.resolver.after p
  memory   := w.memory

namespace Expansion

variable {σ : Type} (a : Advisers σ) (s : CallerSettings) (fs : Files) (ctx : ExpansionContext)
variable (cancelled : Bool) (i : CallerInfo) (r : Resolver) (p : Past) (m : σ)

theorem usages_after (file : FilePath) (symbol : Symbol) : usages a fs file symbol (r.after p) =
    ((usages a fs file symbol r).1, (usages a fs file symbol r).2.after p) := by
  have ofText (name : Text) : usages.ofText fs name (r.after p) =
      ((usages.ofText fs name r).1, (usages.ofText fs name r).2.after p) := by
    simp only [usages.ofText, Resolver.sources_after]
    obtain ⟨found, r'⟩ := r.sources fs
    cases found <;> rfl
  simp only [usages, ofText]
  split <;> rfl

theorem gather_after : gather a s fs cancelled i (r.after p) =
    ((gather a s fs cancelled i r).1, (gather a s fs cancelled i r).2.after p) := by
  simp only [gather, usages_after]
  split
  case h_1 => rfl
  case h_2 =>
    split
    case h_1 => rfl
    case h_2 symbol _ =>
      obtain ⟨found, r'⟩ := usages a fs i.file symbol r
      cases found
      case error => rfl
      case ok l  =>
        dsimp only
        split
        case isTrue  => rfl
        case isFalse => split <;> rfl

theorem compute_after : compute a s fs ctx cancelled i (r.after p) m =
    ((compute a s fs ctx cancelled i r m).1, (compute a s fs ctx cancelled i r m).2.1.after p,
      (compute a s fs ctx cancelled i r m).2.2) := by
  simp only [compute, gather_after]
  obtain ⟨found, r'⟩ := gather a s fs cancelled i r
  cases found
  case error => rfl
  case ok g  => cases g <;> rfl

theorem load_after (g : LoadGuard) (w : Surroundings σ) :
    load a s fs ctx cancelled i (g.after p) (w.after p) =
      ((load a s fs ctx cancelled i g w).1, (load a s fs ctx cancelled i g w).2.after p) := by
  have hk : (g.after p).key = g.key := rfl
  have hw : (w.after p).cache = w.cache.after p ∧ (w.after p).resolver = w.resolver.after p ∧
      (w.after p).memory = w.memory := ⟨rfl, rfl, rfl⟩
  simp only [load, hk, hw, compute_after, CallerCache.complete_after, CallerCache.release_after,
    CallerCache.hydrate_after]
  obtain ⟨found, r', m'⟩ := compute a s fs ctx cancelled i w.resolver w.memory
  cases found
  case error e => cases e <;> rfl
  case ok o    => cases o <;> rfl

theorem children_after (n : CallerNode) (w : Surroundings σ) :
    children a s fs ctx cancelled n (w.after p) =
      ((children a s fs ctx cancelled n w).1, (children a s fs ctx cancelled n w).2.after p) := by
  have hw : (w.after p).cache = w.cache.after p := rfl
  simp only [children, hw, CallerCache.claim_after]
  obtain ⟨claim, c⟩ := w.cache.claim n.key
  cases claim
  case ready l => simp [Claim.after, CallerCache.hydrate_after, Surroundings.after]
  case busy    => rfl
  case owner g => exact load_after a s fs ctx cancelled n.info p g { w with cache := c }

theorem expand_after (n : CallerNode) (w : Surroundings σ) :
    expand a s fs ctx cancelled n (w.after p) =
      ((expand a s fs ctx cancelled n w).1, (expand a s fs ctx cancelled n w).2.after p) := by
  simp only [expand, children_after]
  split <;> rfl

end Expansion

end LogOrigin
