import LogOrigin.Proofs.Session.Requests

-- To write down what the oracle is asked changes nothing else: not the answers, not the records,
-- and nothing that is remembered.

namespace LogOrigin

namespace Expansion

variable {σ : Type} (a : Advisers σ) (s : CallerSettings) (fs : Files) (ctx : ExpansionContext)
variable (cancelled : Bool) (i : CallerInfo) (w : Surroundings σ) (log : List Oracle.Call)

theorem rank_withLog (l : List CallCandidate) (m : σ) : rank a.logged ctx l (m, log) =
    ((rank a ctx l m).1, (rank a ctx l m).2, .rank (ctx.request l) :: log) := by
  have ho : a.logged.oracle.rank (ctx.request l) (m, log) =
    ((a.oracle.rank (ctx.request l) m).1, (a.oracle.rank (ctx.request l) m).2,
      .rank (ctx.request l) :: log) := rfl
  simp only [rank, ho]
  generalize a.oracle.rank (ctx.request l) m = x
  obtain ⟨answer, _⟩ := x
  cases answer <;> rfl

theorem compute_withLog (r : Resolver) (m : σ) :
    ∃ log', compute a.logged s fs ctx cancelled i r (m, log) =
      let x := compute a s fs ctx cancelled i r m
      (x.1, x.2.1, x.2.2, log') := by
  -- The oracle has no part in what is found.
  have hg : gather a.logged s fs cancelled i r = gather a s fs cancelled i r := rfl
  simp only [compute, hg]
  obtain ⟨found, r'⟩ := gather a s fs cancelled i r
  cases found
  case error => exact ⟨log, rfl⟩
  case ok g  =>
    cases g
    case callers      => exact ⟨log, rfl⟩
    case candidates l =>
      refine ⟨.rank (ctx.request l) :: log, ?_⟩
      simp only [rank_withLog]

theorem load_withLog (guard : LoadGuard) :
    ∃ log', load a.logged s fs ctx cancelled i guard (w.withLog log) =
      let x := load a s fs ctx cancelled i guard w
      (x.1, x.2.withLog log') := by
  have ⟨log', hc⟩ := compute_withLog a s fs ctx cancelled i log w.resolver w.memory
  have hw : (w.withLog log).resolver = w.resolver ∧ (w.withLog log).memory = (w.memory, log) :=
    ⟨rfl, rfl⟩
  refine ⟨log', ?_⟩
  simp only [load, hw, hc]
  obtain ⟨found, r, m⟩ := compute a s fs ctx cancelled i w.resolver w.memory
  cases found
  case error e => cases e <;> rfl
  case ok o    => cases o <;> rfl

theorem children_withLog (n : CallerNode) :
    ∃ log', children a.logged s fs ctx cancelled n (w.withLog log) =
      let x := children a s fs ctx cancelled n w
      (x.1, x.2.withLog log') := by
  have hw : (w.withLog log).cache = w.cache := rfl
  simp only [children, hw]
  obtain ⟨claim, c⟩ := w.cache.claim n.key
  cases claim
  case ready       => exact ⟨log, rfl⟩
  case busy        => exact ⟨log, rfl⟩
  case owner guard =>
    exact load_withLog a s fs ctx cancelled n.info { w with cache := c } log guard

theorem expand_withLog (n : CallerNode) :
    ∃ log', expand a.logged s fs ctx cancelled n (w.withLog log) =
      let x := expand a s fs ctx cancelled n w
      (x.1, x.2.withLog log') := by
  have ⟨log', hc⟩ := children_withLog a s fs ctx cancelled w log n
  cases hn : n.isExpanded
  case true  => exact ⟨log, by simp only [expand_expanded hn]⟩
  case false => exact ⟨log', by simp [expand, hn, hc]⟩

end Expansion

namespace Session

variable {σ : Type} (s : Session σ) (fs : Files) (id : Nat) (log : List Oracle.Call)

theorem cancelSelection_withLog :
    (s.withLog log).cancelSelection = s.cancelSelection.withLog log := by
  have hs : (s.withLog log).selection = s.selection := rfl
  unfold cancelSelection
  rw [hs]
  split <;> rfl

theorem load_withLog (t : Text) :
    (s.withLog log).load t = ((s.load t).1, (s.load t).2.withLog log) := by
  have hs : (s.withLog log).store = s.store := rfl
  simp only [load, hs, cancelSelection_withLog]
  split <;> rfl

theorem loadFile_withLog (file : FilePath) :
    (s.withLog log).loadFile fs file =
      ((s.loadFile fs file).1, (s.loadFile fs file).2.withLog log) := by
  simp only [loadFile, load_withLog]
  split <;> rfl

theorem analyze_withLog :
    ∃ log', (s.withLog log).analyze id = ((s.analyze id).1, (s.analyze id).2.withLog log') := by
  have hs : (s.withLog log).store = s.store := rfl
  unfold analyze
  rw [hs]
  split
  case h_1 => exact ⟨log, rfl⟩
  case h_2 r _ =>
    split
    case h_1 => exact ⟨log, rfl⟩
    case h_2 =>
      have ho : (s.withLog log).advisers.oracle.analyze r.message
          (s.withLog log).surroundings.memory =
        let x := s.advisers.oracle.analyze r.message s.surroundings.memory
        (x.1, x.2, .analyze r.message :: log) := rfl
      refine ⟨.analyze r.message :: log, ?_⟩
      rw [ho]
      generalize s.advisers.oracle.analyze r.message s.surroundings.memory = x
      obtain ⟨answer, _⟩ := x
      cases answer <;> rfl

theorem beginLocate_withLog :
    (s.withLog log).beginLocate id = ((s.beginLocate id).1, (s.beginLocate id).2.withLog log) := by
  have hs : (s.withLog log).store = s.store ∧ (s.withLog log).inFlight id = s.inFlight id :=
    ⟨rfl, rfl⟩
  simp only [beginLocate, hs, cancelSelection_withLog]
  split
  case h_1 => rfl
  case h_2 => split <;> rfl

theorem finish_withLog (d : CompletedLocate) :
    (s.withLog log).finish d = ((s.finish d).1, (s.finish d).2.withLog log) := by
  have hs : (s.withLog log).store = s.store ∧ (s.withLog log).isCurrent d = s.isCurrent d :=
    ⟨rfl, rfl⟩
  simp only [finish, hs]
  split
  case isFalse => rfl
  case isTrue  =>
    split
    case h_1 => rfl
    case h_2 => split <;> rfl
    case h_3 => rfl

theorem locate_withLog :
    (s.withLog log).locate fs id = ((s.locate fs id).1, (s.locate fs id).2.withLog log) := by
  have hs : (s.withLog log).store = s.store := rfl
  simp only [locate, hs]
  split <;> rfl

theorem location_withLog :
    (s.withLog log).location fs id = ((s.location fs id).1, (s.location fs id).2.withLog log) := by
  have hs : (s.withLog log).store = s.store := rfl
  simp only [location, hs, locate_withLog]
  split
  case h_1 => rfl
  case h_2 =>
    split
    case h_1 => rfl
    case h_2 =>
      obtain ⟨result, t⟩ := s.locate fs id
      cases result
      case error => rfl
      case ok x  => cases x <;> rfl

theorem expandNode_withLog (ctx : ExpansionContext) (n : CallerNode) :
    ∃ log', (s.withLog log).expandNode fs ctx n =
      ((s.expandNode fs ctx n).1, (s.expandNode fs ctx n).2.withLog log') := by
  have ⟨log', he⟩ := Expansion.expand_withLog s.advisers s.settings.callers fs ctx false
    s.surroundings log n
  exact ⟨log', by simp only [expandNode, withLog, he]⟩

theorem treeAt_withLog (file : FilePath) (line : Nat) :
    ∃ log', (s.withLog log).treeAt fs id file line =
      ((s.treeAt fs id file line).1, (s.treeAt fs id file line).2.withLog log') := by
  have hs : (s.withLog log).store = s.store ∧ (s.withLog log).context id = s.context id :=
    ⟨rfl, rfl⟩
  simp only [treeAt, hs]
  split
  case h_1 => exact ⟨log, rfl⟩
  case h_2 =>
    split
    case h_1 => exact ⟨log, rfl⟩
    case h_2 =>
      split
      case h_1     => exact ⟨log, rfl⟩
      case h_2 ctx _ =>
        have ⟨log', he⟩ := s.expandNode_withLog fs log ctx (.root file line)
        exact ⟨log', by simp only [he]; rfl⟩

theorem callers_withLog :
    ∃ log', (s.withLog log).callers fs id =
      ((s.callers fs id).1, (s.callers fs id).2.withLog log') := by
  simp only [callers, location_withLog]
  obtain ⟨result, t⟩ := s.location fs id
  cases result
  case error => exact ⟨log, rfl⟩
  case ok l  =>
    have ht : (t.withLog log).resolver.root = t.resolver.root := rfl
    simp only [ht]
    split
    case h_1 => exact ⟨log, rfl⟩
    case h_2 => exact t.treeAt_withLog ..

theorem expand_withLog (way : List Nat) :
    ∃ log', (s.withLog log).expand fs id way =
      ((s.expand fs id way).1, (s.expand fs id way).2.withLog log') := by
  have hs : (s.withLog log).store = s.store ∧ (s.withLog log).context id = s.context id :=
    ⟨rfl, rfl⟩
  simp only [expand, hs]
  split
  case h_1 => exact ⟨log, rfl⟩
  case h_2 => exact ⟨log, rfl⟩
  case h_3 ctx _ _ _ =>
    split
    case h_1 => exact ⟨log, rfl⟩
    case h_2 =>
      split
      case h_1   => exact ⟨log, rfl⟩
      case h_2 n _ =>
        have ⟨log', he⟩ := s.expandNode_withLog fs log ctx n
        exact ⟨log', by simp only [he]; rfl⟩

end Session

-- Whether a request is none of those for which the oracle may be asked.
def Request.isSilent : Request → Bool
  | analyze _  => false
  | callers _  => false
  | expand _ _ => false
  | _          => true

namespace FrontEnd

variable {σ : Type} (c : FrontEnd σ) (log : List Oracle.Call)

-- A request with which the session does not come to the oracle.
theorem step_silent {q : Request} (hq : q.isSilent = true) :
    (c.withLog log).step q = ((c.step q).1, (c.step q).2.withLog log) := by
  have hc : (c.withLog log).session = c.session.withLog log ∧ (c.withLog log).files = c.files :=
    ⟨rfl, rfl⟩
  have hk k : (c.withLog log).handle? k = c.handle? k := rfl
  cases q
  case load t        => simp only [step, hc, Session.load_withLog]; rfl
  case loadFile file => simp only [step, hc, Session.loadFile_withLog]; rfl
  case analyze       => cases hq
  case begin id      => simp only [step, hc, Session.beginLocate_withLog]; rfl
  case run k         => simp only [step, hk]; split <;> rfl
  case finish k      => simp only [step, hk, hc, Session.finish_withLog]; split <;> rfl
  case drop k        => simp only [step, hk]; split <;> rfl
  case cancel k      => simp only [step, hk]; split <;> rfl
  case locate id     => simp only [step, hc, Session.locate_withLog]; rfl
  case callers       => cases hq
  case expand        => cases hq
  case write         => rfl
  case delete        => rfl

theorem step_withLog (q : Request) :
    ∃ log', (c.withLog log).step q = ((c.step q).1, (c.step q).2.withLog log') := by
  have hc : (c.withLog log).session = c.session.withLog log ∧ (c.withLog log).files = c.files :=
    ⟨rfl, rfl⟩
  cases q
  case analyze id    =>
    have ⟨log', h⟩ := c.session.analyze_withLog id log
    exact ⟨log', by simp only [step, hc, h]; rfl⟩
  case callers id    =>
    have ⟨log', h⟩ := c.session.callers_withLog c.files id log
    exact ⟨log', by simp only [step, hc, h]; rfl⟩
  case expand id way =>
    have ⟨log', h⟩ := c.session.expand_withLog c.files id log way
    exact ⟨log', by simp only [step, hc, h]; rfl⟩
  all_goals exact ⟨log, c.step_silent log rfl⟩

theorem calls_silent {q : Request} (hq : q.isSilent = true) : c.calls [q] = [] := by
  simp only [calls, run, c.step_silent [] hq]
  rfl

-- Whoever watches the requests sees the same.
theorem observe_withLog (l : List Request) :
    ((c.withLog log).observe l).map (fun o =>
      ⟨o.answer, o.records, o.sources, o.known, o.memory.1⟩) = c.observe l := by
  induction l generalizing c log
  case nil         => rfl
  case cons q l hi =>
    have ⟨log', h⟩ := c.step_withLog log q
    simp only [observe, h, List.map_cons, hi]
    rfl

end FrontEnd

end LogOrigin
