import LogOrigin.Proofs.Session.Reload
import LogOrigin.Proofs.Session.Requests
import LogOrigin.Proofs.Session.Setup

-- Loading a log makes a session a new one: nobody who works with it from then on can tell it from a
-- session that has just been made and has loaded the same log.

namespace LogOrigin

def Handle.after : Handle → Past → Handle
  | pending n x, p   => pending n (x.after p)
  | completed n x, p => completed n (x.after p)

namespace FrontEnd

variable {σ : Type} (c : FrontEnd σ) (p : Past)

def after : FrontEnd σ where
  session := c.session.after p
  files   := c.files
  handles := c.handles.map (Option.map (·.after p))

theorem handle?_after (k : Nat) : (c.after p).handle? k = (c.handle? k).map (·.after p) := by
  simp only [handle?, after, List.getElem?_map]
  cases c.handles[k]? <;> rfl

theorem token_after (h : Handle) : (h.after p).ticket.token = h.ticket.token.after p := by
  cases h <;> rfl

theorem given_after (n : Nat) (a : Except Failure (Option PendingLocate)) :
    SharedSession.given n (a.map (Option.map (·.after p))) =
      (SharedSession.given n a).map (·.after p) := by
  match a with
  | .error _     => rfl
  | .ok none     => rfl
  | .ok (some _) => rfl

theorem step_after (q : Request) : (c.after p).step q = ((c.step q).1, (c.step q).2.after p) := by
  have hc : (c.after p).session = c.session.after p ∧ (c.after p).files = c.files := ⟨rfl, rfl⟩
  cases q
  case load t          => simp only [step, hc, Session.load_after]; rfl
  case loadFile file   => simp only [step, hc, Session.loadFile_after]; rfl
  case analyze id      => simp only [step, hc, Session.analyze_after]; rfl
  case begin id        =>
    have hn : (c.after p).handles.length = c.handles.length := List.length_map ..
    simp only [step, hc, Session.beginLocate_after, hn, given_after]
    generalize c.session.beginLocate id = x
    obtain ⟨a, s⟩ := x
    refine Prod.ext ?_ ?_
    · cases a
      case error => rfl
      case ok b  => cases b <;> rfl
    · simp [after, Function.comp_def]
  case run k           =>
    simp only [step, handle?_after]
    cases c.handle? k
    case none   => rfl
    case some h =>
      cases h
      case pending n x =>
        simp only [Option.map_some, Handle.after, hc, Session.run_after]
        simp [after, List.map_set, Handle.after, CompletedLocate.after]
      case completed   => rfl
  case finish k        =>
    simp only [step, handle?_after]
    cases c.handle? k
    case none   => rfl
    case some h =>
      cases h
      case pending       => rfl
      case completed n d =>
        simp only [Option.map_some, Handle.after, hc, Session.finish_after]
        simp [after, List.map_set]
  case drop k          =>
    simp only [step, handle?_after]
    cases c.handle? k
    case none   => rfl
    case some h =>
      simp only [Option.map_some, token_after, hc, Session.release_after]
      simp [after, List.map_set]
  case cancel k        =>
    simp only [step, handle?_after]
    cases c.handle? k
    case none   => rfl
    case some h =>
      simp only [Option.map_some, token_after, hc, Session.cancel_after]
      simp [after]
  case locate id       => simp only [step, hc, Session.locate_after]; rfl
  case callers id      => simp only [step, hc, Session.callers_after]; rfl
  case expand id way   => simp only [step, hc, Session.expand_after]; rfl
  case write names b   => rfl
  case delete names    => rfl

theorem run_after (l : List Request) : (c.after p).run l = (c.run l).after p := by
  induction l generalizing c
  case nil         => rfl
  case cons q l hi => simp only [run, step_after, hi]

theorem observe_after (l : List Request) : (c.after p).observe l = c.observe l := by
  induction l generalizing c
  case nil         => rfl
  case cons q l hi =>
    simp only [observe, step_after, hi]
    rfl

theorem calls_after (l : List Request) : (c.after p).calls l = c.calls l := by
  have hl : (c.after p).withLog [] = (c.withLog []).after p := rfl
  simp only [calls, hl, run_after]
  rfl

end FrontEnd

namespace Session

variable {σ : Type} {s : Session σ} {t : Text}

-- A new session with the same settings and collaborators, whose oracle goes on where it is.
def renew (s : Session σ) : Session σ :=
  .new s.resolver.root s.settings s.advisers s.surroundings.memory

-- What a session has behind it once another log has been loaded.
def past (s : Session σ) (h : s.cancelSelection.Bounded) : Past where
  epoch      := s.surroundings.cache.epoch
  scans      := s.resolver.scans
  generation := s.generation
  issued     := s.cancelSelection.tokens.issued
  cancelled  := s.cancelSelection.tokens.cancelled
  bounded    := h

theorem load_renew {l : List Record} (ht : Parser.standard.parseBatch t = .ok l)
    (hs : s.resolver.settings = s.settings.search) (hb : s.cancelSelection.Bounded) :
    (s.renew.load t).1 = .ok l.length ∧
      s.load t = (.ok l.length, (s.renew.load t).2.after (s.past hb)) := by
  have h (s : Session σ) : s.store.load .standard t = (.ok l.length, ⟨l⟩) := by
    simp [RecordStore.load, ht]
  refine ⟨by simp [load, h], ?_⟩
  have hw : forget s.surroundings = (forget s.renew.surroundings).after (s.past hb) := by
    have hr : s.resolver = { s.resolver with settings := s.settings.search } := hs ▸ rfl
    exact congrArg (fun r => forget { s.surroundings with resolver := r }) hr
  simp only [load, h, hw]
  rw [cancelSelection_eq]
  rfl

end Session

theorem Parser.exists_of_parseLine {p : Parser} {t line : Text} (hm : line ∈ Text.lines t)
    (h : (p.parseLine line).isSome = true) : ∃ l, p.parseBatch t = .ok l := by
  obtain ⟨r, hr⟩ := Option.isSome_iff_exists.mp h
  have hr : r ∈ (Text.lines t).filterMap p.parseLine := List.mem_filterMap.mpr ⟨line, hm, hr⟩
  unfold parseBatch
  split
  case h_1 hn    => simp [hn] at hr
  case h_2 r l _ => exact ⟨r :: l, rfl⟩

namespace SharedSession

variable {σ : Type} {x : SharedSession σ} {h : History}

-- Whatever has happened to a session, once it has loaded a log with a record every further work
-- with it goes as with a new session that has loaded the log. The results of searches that began
-- before change nothing.
theorem reload_as_new (r : Reachable h x) {t : Text}
    (ht : ∃ line ∈ Text.lines t, (Parser.standard.parseLine line).isSome = true) (fs : Files) :
    let old : FrontEnd σ := ⟨(x.session.load t).2, fs, []⟩
    let new : FrontEnd σ := ⟨(x.session.renew.load t).2, fs, []⟩
    (∃ n, (x.session.load t).1 = .ok n ∧ (x.session.renew.load t).1 = .ok n) ∧
    old.session.store = new.session.store ∧
    ∀ requests,
      old.observe requests = new.observe requests ∧
      old.calls requests = new.calls requests ∧
      ∀ a ∈ x.handles, ∀ d : CompletedLocate, d.id = a.ticket.id → d.token = a.ticket.token →
        d.generation = a.ticket.generation →
        (old.run requests).session.finish d = (.ok none, (old.run requests).session) := by
  obtain ⟨line, hm, hl⟩ := ht
  obtain ⟨l, hl⟩ := Parser.exists_of_parseLine hm hl
  have hb : x.session.cancelSelection.Bounded := r.bounded.cancelSelection r.tracked.selected
  have ⟨hn, ho⟩ := Session.load_renew hl r.search_settings hb
  intro old new
  have he : old = new.after (x.session.past hb) := by simp [old, new, ho, FrontEnd.after]
  refine ⟨⟨l.length, by rw [ho], hn⟩, by rw [he]; rfl, fun requests => ⟨?observe, ?calls, ?finish⟩⟩
  case observe => rw [he, FrontEnd.observe_after]
  case calls   => rw [he, FrontEnd.calls_after]
  case finish  =>
    intro a ha d _ hk _
    apply Session.finish_stale
    rw [Bool.eq_false_iff, ne_eq, Session.isCurrent_iff]
    rintro ⟨_, z, hz, hd⟩
    rw [he, FrontEnd.run_after] at hz
    obtain ⟨y, _, rfl⟩ := Option.map_eq_some_iff.mp hz
    -- The token of a selection is younger than those of the past.
    have hy : x.session.tokens.issued + y.token.number = a.ticket.token.number := by
      rw [← hk, ← hd, ← x.session.issued_cancelSelection]
      rfl
    have := r.tracked.issued _ (List.mem_map_of_mem ha)
    omega

-- The handle of a search that has been run, when another log is loaded.
theorem reload_as_new_pending :
    let s := ((Session.offline ⟨['.']⟩ Settings.default).load ['a']).2
    let fs : Files := ⟨.dir [], []⟩
    ∃ p, (s.beginLocate 0).1 = .ok (some p) ∧
      let (d, u) := (s.beginLocate 0).2.run fs p
      let old : FrontEnd Unit := ⟨(u.load ['b']).2, fs, []⟩
      let new : FrontEnd Unit := ⟨(u.renew.load ['b']).2, fs, []⟩
      let requests := [.begin 0, .run 0, .finish 0, .callers 0]
      old.observe requests = new.observe requests ∧
        (old.run [.begin 0]).session.finish d = (.ok none, (old.run [.begin 0]).session) := by
  intro s fs
  obtain ⟨p, hp⟩ : ∃ p, (s.beginLocate 0).1 = .ok (some p) := ⟨_, rfl⟩
  refine ⟨p, hp, ?_⟩
  have r : Reachable [.loaded (.ok 1)] ⟨s, []⟩ :=
    (Reachable.new ⟨['.']⟩ Settings.default ⟨.lexical, .text⟩ ()).step <| .load ['a']
  have r : Reachable [.began 0 (.ok (some p)), .loaded (.ok 1)]
      ⟨(s.beginLocate 0).2, [.pending 1 p]⟩ := by
    have r := r.step <| .begin 0
    rwa [hp] at r
  have r := r.step <| .run (l := []) (m := []) fs rfl
  have ht : ∃ line ∈ Text.lines ['b'], (Parser.standard.parseLine line).isSome = true :=
    ⟨['b'], by decide, rfl⟩
  have ⟨_, _, hr⟩ := reload_as_new r ht fs
  exact ⟨(hr _).1, (hr [.begin 0]).2.2 _ (List.mem_cons_self ..) _ rfl rfl rfl⟩

end SharedSession

end LogOrigin
