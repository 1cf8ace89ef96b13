import LogOrigin.Proofs.Log.Store
import LogOrigin.Proofs.Session.SingleFlight
import LogOrigin.Proofs.Session.Staleness

-- A log that cannot be loaded leaves everything as it is, and who waits for the origin of a record
-- will get it as if nobody had tried to load anything.

namespace LogOrigin

namespace Session

variable {σ : Type} {s : Session σ} {attempt : Except Failure Nat × Session σ} {e : Failure}

-- The ways in which loading a log can fail: by a text without records, given as such or in a file,
-- or by a file that cannot be read.
inductive FailsToLoad (s : Session σ) : Except Failure Nat × Session σ → Failure → Prop where
  | text {t : Text} :
    (∀ line ∈ Text.lines t, Parser.IsBlankLine line) →
    FailsToLoad s (s.load t) .batchEmpty
  | file {fs : Files} {file : FilePath} {t : Text} :
    fs.read file = .ok t →
    (∀ line ∈ Text.lines t, Parser.IsBlankLine line) →
    FailsToLoad s (s.loadFile fs file) .batchEmpty
  | unreadable {fs : Files} {file : FilePath} {e : FileError} :
    fs.read file = .error e →
    FailsToLoad s (s.loadFile fs file) (.file e)

theorem load_blank (s : Session σ) {t : Text}
    (h : ∀ line ∈ Text.lines t, Parser.IsBlankLine line) :
    s.load t = (.error .batchEmpty, s) := by
  rw [load, RecordStore.load_failed _ <| Parser.parseBatch_blank .standard h]

theorem FailsToLoad.eq (f : s.FailsToLoad attempt e) : attempt = (.error e, s) := by
  cases f
  case text ht       => exact s.load_blank ht
  case file hf ht    => rw [loadFile, hf]; exact s.load_blank ht
  case unreadable hf => rw [loadFile, hf]

end Session

namespace SharedSession

open History

variable {σ : Type} {x y : SharedSession σ} {h l : History} {time : Nat} {d : CompletedLocate}

-- What can become of a shared session with a history, and the history since then.
inductive Later (h : History) (x : SharedSession σ) : History → SharedSession σ → Prop where
  | now : Later h x [] x
  | step {l : History} {y z : SharedSession σ} {e : Event} :
    Later h x l y → Step y (l ++ h).length e z → Later h x (e :: l) z

theorem Reachable.later (r : Reachable h x) (la : Later h x l y) : Reachable (l ++ h) y := by
  induction la
  case now          => exact r
  case step _ st hi => exact hi.step st

-- Whether a search that is the selection stays the selection until its result is taken.
def Event.KeepsSelection : Event → Prop
  | .loaded (.ok _)         => False
  | .began _ (.ok (some _)) => False
  | _                       => True

theorem latest_cons {e : Event} (he : e.KeepsSelection) (h : History) :
    latest (e :: h) = latest h := by
  unfold Event.KeepsSelection at he
  split at he
  case h_1 => exact he.elim
  case h_2 => exact he.elim
  case h_3 => rw [latest] <;> assumption

theorem latest_append (hl : ∀ e ∈ l, e.KeepsSelection) (h : History) :
    latest (l ++ h) = latest h := by
  induction l
  case nil         => rfl
  case cons e l hi =>
    have ⟨he, hl⟩ := List.forall_mem_cons.mp hl
    rw [List.cons_append, latest_cons he, hi hl]

-- The result of the latest search is taken.
theorem Reachable.finish_latest (r : Reachable h x) (hd : .completed time d ∈ x.handles)
    (hl : latest h = some time) : ∃ record, x.session.store.get d.id = .ok record ∧
      x.session.finish d = (d.result.map some, Session.setRecord
        { x.session with selection := none } d.id (Resolver.keep record d.result)) := by
  have ht := List.mem_map_of_mem (f := Handle.ticket) hd
  have ⟨z, hz, hk⟩ := (r.tracked.latest_iff _ ht).mp hl
  have ⟨_, _, hlt⟩ := r.tracked.matching _ ht z hz hk
  have ⟨record, hr⟩ := RecordStore.get_of_lt hlt
  exact ⟨record, hr, Session.finish_current ((r.isCurrent_iff hd).mpr hl) hr⟩

variable {attempt : Except Failure Nat × Session σ} {e : Failure}

theorem Reachable.loadFailed (r : Reachable h x) (f : x.session.FailsToLoad attempt e) :
    Reachable (.loaded (.error e) :: h) x := by
  have he := f.eq
  have st : Step x h.length (.loaded attempt.1) ⟨attempt.2, x.handles⟩ := by
    cases f
    case text       => exact .load _
    case file       => exact .loadFile ..
    case unreadable => exact .loadFile ..
  rw [he] at st
  exact r.step st

-- A log that cannot be loaded changes nothing of a session. The search of the selection is not
-- called off, and whatever happens after it, unless another one begins or a log is loaded, its
-- result is taken. A store of its own keeps its records in the same way: they are always those of
-- the last log that could be loaded, with the messages that they have been given since, and there
-- are no others.
theorem failed_load_keeps (r : Reachable h x) (f : x.session.FailsToLoad attempt e) :
    attempt = (.error e, x.session) ∧
    (∀ a ∈ x.handles, x.session.Selects a.ticket.token →
      a.isLive attempt.2 = a.isLive x.session ∧
      ∀ l y d, Later (.loaded attempt.1 :: h) ⟨attempt.2, x.handles⟩ l y →
        (∀ b ∈ l, b.KeepsSelection) → .completed a.ticket.time d ∈ y.handles →
        ∃ record, y.session.store.get d.id = .ok record ∧
          y.session.finish d = (d.result.map some, Session.setRecord
            { y.session with selection := none } d.id (Resolver.keep record d.result))) ∧
    (∀ l, let s := RecordStore.after l
      RecordStore.Recorded l s.records ∧
      ∀ id, (id < s.size → ∃ record, s.get id = .ok record) ∧
        (s.size ≤ id → s.get id = .error (.unknownRecord id) ∧
          ∀ t, s.setMessage id t = (.error (.unknownRecord id), s))) := by
  have rf := r.loadFailed f
  obtain rfl := f.eq
  refine ⟨rfl, ?handles, ?records⟩
  case handles =>
    intro a ha hs
    refine ⟨rfl, fun l y d la hl hd => ?_⟩
    have ht := (r.tracked.latest_iff _ <| List.mem_map_of_mem ha).mpr hs
    exact (rf.later la).finish_latest hd <| (latest_append hl _).trans ht
  case records =>
    intro l s
    refine ⟨RecordStore.recorded_after l, fun id => ⟨RecordStore.get_of_lt, fun hi => ?_⟩⟩
    exact ⟨RecordStore.get_of_le hi, RecordStore.setMessage_of_le hi⟩

-- Two blank lines instead of a log, while a record is being searched for.
theorem failed_load_keeps_blank :
    let s := ((Session.offline ⟨['.']⟩ Settings.default).load ['a', '\n', 'b']).2
    let s₀ := (s.beginLocate 0).2
    let attempt := s₀.load ['\n', ' ', '\n']
    let fs : Files := ⟨.dir [], []⟩
    ∃ p, (s.beginLocate 0).1 = .ok (some p) ∧ attempt = (.error .batchEmpty, s₀) ∧
      let ran := attempt.2.run fs p
      (ran.2.finish ran.1).1 = ran.1.result.map some := by
  intro s s₀ attempt fs
  obtain ⟨p, hp, hs⟩ : ∃ p, (s.beginLocate 0).1 = .ok (some p) ∧ s₀.Selects p.token :=
    ⟨_, rfl, _, rfl, rfl⟩
  have r : Reachable [.loaded (.ok 2)] ⟨s, []⟩ :=
    (Reachable.new ⟨['.']⟩ Settings.default ⟨.lexical, .text⟩ ()).step <| .load ['a', '\n', 'b']
  have r : Reachable [.began 0 (.ok (some p)), .loaded (.ok 2)] ⟨s₀, [.pending 1 p]⟩ := by
    have r := r.step <| .begin 0
    rwa [hp] at r
  have f : s₀.FailsToLoad attempt .batchEmpty := .text <| by decide
  have ⟨he, handles, _⟩ := failed_load_keeps r f
  have ⟨_, later⟩ := handles _ (List.mem_singleton_self _) hs
  have ran (k : History) : Later k ⟨attempt.2, [.pending 1 p]⟩ [_] ⟨_, [.completed 1 _]⟩ :=
    Later.now.step <| .run (l := []) (m := []) fs rfl
  have ⟨_, _, taken⟩ :=
    later _ _ _ (ran _) (List.forall_mem_singleton.mpr trivial) (List.mem_singleton_self _)
  exact ⟨p, hp, he, congrArg Prod.fst taken⟩

end SharedSession

end LogOrigin
