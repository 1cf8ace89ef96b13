import LogOrigin.Proofs.Session.Past
import LogOrigin.Proofs.Session.Tracking

-- A session after another log has been loaded: it is a new session with a past, and goes on as one.

namespace LogOrigin

def Selection.after (x : Selection) (p : Past) : Selection :=
  { x with token := x.token.after p }

def PendingLocate.after (x : PendingLocate) (p : Past) : PendingLocate :=
  { x with token := x.token.after p, generation := p.generation + x.generation }

def CompletedLocate.after (x : CompletedLocate) (p : Past) : CompletedLocate :=
  { x with token := x.token.after p, generation := p.generation + x.generation }

namespace Session

variable {σ : Type} (s : Session σ) (p : Past) (fs : Files) (id : Nat)

def after : Session σ :=
  { s with
    surroundings := s.surroundings.after p
    generation   := p.generation + s.generation
    tokens       := s.tokens.after p
    selection    := s.selection.map (·.after p) }

theorem cancelSelection_after : (s.after p).cancelSelection = s.cancelSelection.after p := by
  have hs : (s.after p).selection = s.selection.map (·.after p) := rfl
  unfold cancelSelection
  rw [hs]
  cases s.selection <;> rfl

theorem load_after (t : Text) : (s.after p).load t = ((s.load t).1, (s.load t).2.after p) := by
  have hs : (s.after p).store = s.store := rfl
  simp only [load, hs, cancelSelection_after]
  split <;> rfl

theorem loadFile_after (file : FilePath) :
    (s.after p).loadFile fs file = ((s.loadFile fs file).1, (s.loadFile fs file).2.after p) := by
  simp only [loadFile, load_after]
  split <;> rfl

theorem analyze_after :
    (s.after p).analyze id = ((s.analyze id).1, (s.analyze id).2.after p) := by
  have hs : (s.after p).store = s.store ∧ (s.after p).advisers = s.advisers ∧
    (s.after p).surroundings.memory = s.surroundings.memory := ⟨rfl, rfl, rfl⟩
  simp only [analyze, hs]
  split
  case h_1 => rfl
  case h_2 =>
    split
    case h_1 => rfl
    case h_2 => split <;> rfl

theorem inFlight_after : (s.after p).inFlight id = s.inFlight id := by
  have hs : (s.after p).selection = s.selection.map (·.after p) ∧
    (s.after p).tokens = s.tokens.after p := ⟨rfl, rfl⟩
  simp only [inFlight, hs]
  cases s.selection
  case none   => rfl
  case some x => simp [Selection.after, Cancellations.isCancelled_after]

theorem beginLocate_after : (s.after p).beginLocate id =
    ((s.beginLocate id).1.map (Option.map (·.after p)), (s.beginLocate id).2.after p) := by
  have hs : (s.after p).store = s.store ∧ (s.after p).generation = p.generation + s.generation :=
    ⟨rfl, rfl⟩
  have ht : (s.cancelSelection.after p).tokens = s.cancelSelection.tokens.after p := rfl
  simp only [beginLocate, hs, inFlight_after, cancelSelection_after, ht, Cancellations.issue_after]
  split
  case h_1 => rfl
  case h_2 =>
    split
    case isTrue  => rfl
    case isFalse =>
      simp only [after, Except.map, Option.map_some]
      rfl

theorem cancel_after (token : CancellationToken) :
    (s.after p).cancel (token.after p) = (s.cancel token).after p :=
  rfl

theorem release_after (token : CancellationToken) :
    (s.after p).release (token.after p) = (s.release token).after p := by
  have hs : (s.after p).selection = s.selection.map (·.after p) := rfl
  unfold release
  rw [hs]
  cases hx : s.selection
  case none   => simp [after, hx]
  case some x =>
    by_cases ht : x.token = token
    all_goals simp [after, hx, Selection.after, CancellationToken.after_inj, ht]

theorem run_after (x : PendingLocate) :
    (s.after p).run fs (x.after p) = ((s.run fs x).1.after p, (s.run fs x).2.after p) := by
  have hs : (s.after p).resolver = s.resolver.after p ∧ (s.after p).tokens = s.tokens.after p ∧
    (x.after p).record = x.record ∧ (x.after p).token = x.token.after p := ⟨rfl, rfl, rfl, rfl⟩
  simp only [run, hs, Resolver.resolve_after, Cancellations.isCancelled_after]
  rfl

theorem isCurrent_after (d : CompletedLocate) :
    (s.after p).isCurrent (d.after p) = s.isCurrent d := by
  have hs : (s.after p).selection = s.selection.map (·.after p) := rfl
  simp only [isCurrent, hs]
  cases s.selection
  case none   => simp
  case some x =>
    rw [Bool.eq_iff_iff]
    simp [Selection.after, CompletedLocate.after, after, CancellationToken.after_inj]

theorem finish_after (d : CompletedLocate) :
    (s.after p).finish (d.after p) = ((s.finish d).1, (s.finish d).2.after p) := by
  have hs : (s.after p).store = s.store ∧ (d.after p).result = d.result ∧ (d.after p).id = d.id :=
    ⟨rfl, rfl, rfl⟩
  simp only [finish, isCurrent_after, hs]
  split
  case isFalse => rfl
  case isTrue  =>
    split
    case h_1 => rfl
    case h_2 => split <;> rfl
    case h_3 => rfl

theorem locate_after :
    (s.after p).locate fs id = ((s.locate fs id).1, (s.locate fs id).2.after p) := by
  have hs : (s.after p).store = s.store ∧ (s.after p).resolver = s.resolver.after p := ⟨rfl, rfl⟩
  simp only [locate, hs, Resolver.locate_after]
  split <;> rfl

theorem context_after : (s.after p).context id = s.context id :=
  rfl

theorem location_after :
    (s.after p).location fs id = ((s.location fs id).1, (s.location fs id).2.after p) := by
  have hs : (s.after p).store = s.store := rfl
  simp only [location, hs, locate_after]
  split
  case h_1 => rfl
  case h_2 =>
    split
    case h_1 => rfl
    case h_2 =>
      obtain ⟨result, t⟩ := s.locate fs id
      match result with
      | .error _         => rfl
      | .ok (.found _)   => rfl
      | .ok .notFound    => rfl
      | .ok .cancelled   => rfl

theorem expandNode_after (ctx : ExpansionContext) (n : CallerNode) :
    (s.after p).expandNode fs ctx n =
      ((s.expandNode fs ctx n).1, (s.expandNode fs ctx n).2.after p) := by
  have hs : (s.after p).surroundings = s.surroundings.after p ∧
    (s.after p).advisers = s.advisers ∧ (s.after p).settings = s.settings := ⟨rfl, rfl, rfl⟩
  simp only [expandNode, hs, Expansion.expand_after]
  rfl

theorem treeAt_after (file : FilePath) (line : Nat) : (s.after p).treeAt fs id file line =
    ((s.treeAt fs id file line).1, (s.treeAt fs id file line).2.after p) := by
  have hs : (s.after p).store = s.store := rfl
  simp only [treeAt, hs, context_after, expandNode_after]
  split
  case h_1 => rfl
  case h_2 =>
    split
    case h_1 => rfl
    case h_2 => split <;> rfl

theorem callers_after :
    (s.after p).callers fs id = ((s.callers fs id).1, (s.callers fs id).2.after p) := by
  simp only [callers, location_after]
  obtain ⟨result, t⟩ := s.location fs id
  cases result
  case error => rfl
  case ok l  =>
    have ht : (t.after p).resolver.root = t.resolver.root := rfl
    simp only [ht, treeAt_after]
    split <;> rfl

theorem expand_after (way : List Nat) :
    (s.after p).expand fs id way = ((s.expand fs id way).1, (s.expand fs id way).2.after p) := by
  have hs : (s.after p).store = s.store := rfl
  simp only [expand, hs, context_after, expandNode_after]
  split
  case h_1 => rfl
  case h_2 => rfl
  case h_3 =>
    split
    case h_1 => rfl
    case h_2 => split <;> rfl

end Session

end LogOrigin
