import LogOrigin.Proofs.Log.Store
import LogOrigin.Proofs.Session.Calm
import LogOrigin.Proofs.Session.Inline

-- The analyses of records: the oracle is asked for the analysis of a record until it has answered
-- once, and nothing else that happens in the same log asks for an analysis or changes one.

namespace LogOrigin

-- An expansion asks for the ranks of callers and for nothing else.
theorem Expansion.analyze_notMem_calls {σ : Type} (a : Advisers σ) (s : CallerSettings) (fs : Files)
    (ctx : ExpansionContext) (cancelled : Bool) (n : CallerNode) (w : Surroundings σ)
    (message : Text) : .analyze message ∉ calls a s fs ctx cancelled n w := by
  cases hn : n.isExpanded
  case true  => simp [calls, expand_expanded hn]
  case false =>
    obtain ⟨children, w', _, x⟩ := expand_ends a s fs ctx cancelled w hn
    generalize calls a s fs ctx cancelled n w = log at x
    cases x <;> simp

namespace Session

variable {σ : Type} {s t u : Session σ} {id i : Nat} {r : Record} {log : List Oracle.Call}

-- What an oracle is asked about a record, and its answer if there is one.
def subject? (s : Session σ) (id : Nat) : Option (Text × Option Analysis) :=
  s.store.records[id]?.map fun r => (r.message, r.analysis)

theorem subject?_of_get (h : s.store.get id = .ok r) :
    s.subject? id = some (r.message, r.analysis) := by
  simp [subject?, RecordStore.get_eq_ok.mp h]

theorem exists_of_subject? {message : Text} {analysis : Option Analysis}
    (h : s.subject? id = some (message, analysis)) :
    ∃ r, s.store.get id = .ok r ∧ r.message = message ∧ r.analysis = analysis := by
  obtain ⟨r, hr, he⟩ := Option.map_eq_some_iff.mp h
  obtain ⟨hm, ha⟩ := Prod.mk.inj he
  exact ⟨r, RecordStore.get_eq_ok.mpr hr, hm, ha⟩

theorem subject?_setRecord_ne (h : id ≠ i) (new : Record) :
    (s.setRecord i new).subject? id = s.subject? id := by
  simp [subject?, setRecord, RecordStore.set, List.getElem?_set_ne h.symm]

-- A record can be put back with another origin or another tree.
theorem subject?_setRecord (hr : s.store.get i = .ok r) (new : Record)
    (hm : new.message = r.message) (ha : new.analysis = r.analysis) :
    (s.setRecord i new).subject? id = s.subject? id := by
  by_cases hi : id = i
  case pos => rw [hi, subject?_of_get (get_setRecord hr new), subject?_of_get hr, hm, ha]
  case neg => exact subject?_setRecord_ne hi new

-- No analysis changes, and none is asked for.
structure KeepsAnalyses (s t : Session σ) (log : List Oracle.Call) : Prop where
  subjects : ∀ id, t.subject? id = s.subject? id
  unasked  : ∀ message, .analyze message ∉ log

namespace KeepsAnalyses

theorem of_store (h : t.store = s.store) : KeepsAnalyses s t [] where
  subjects id := by rw [subject?, h, subject?]
  unasked     := by simp

theorem setRecord (h : KeepsAnalyses s t log) (hr : t.store.get i = .ok r) {new : Record}
    (hm : new.message = r.message) (ha : new.analysis = r.analysis) :
    KeepsAnalyses s (t.setRecord i new) log where
  subjects id := (subject?_setRecord hr new hm ha).trans <| h.subjects id
  unasked     := h.unasked

theorem keep (h : KeepsAnalyses s t log) (hr : t.store.get i = .ok r)
    (result : Except Failure Resolution) :
    KeepsAnalyses s (t.setRecord i (Resolver.keep r result)) log := by
  obtain ⟨l, hl⟩ := Resolver.exists_keep r result
  rw [hl]
  exact h.setRecord hr rfl rfl

theorem expandNode (h : KeepsAnalyses s t []) (fs : Files) (ctx : ExpansionContext)
    (n : CallerNode) : KeepsAnalyses s (t.expandNode fs ctx n).2
      (Expansion.calls t.advisers t.settings.callers fs ctx false n t.surroundings) where
  subjects := h.subjects
  unasked  := Expansion.analyze_notMem_calls _ _ fs ctx false n _

end KeepsAnalyses

section Operations

variable (s : Session σ) (fs : Files) (id : Nat)

theorem keepsAnalyses_beginLocate : KeepsAnalyses s (s.beginLocate id).2 [] := by
  cases hr : s.store.get id
  case error => rw [beginLocate_unknown hr]; exact .of_store rfl
  case ok    =>
    cases hf : s.inFlight id
    case true  => rw [beginLocate_inFlight hr hf]; exact .of_store rfl
    case false => rw [beginLocate_free hr hf]; exact .of_store rfl

theorem keepsAnalyses_finish (d : CompletedLocate) : KeepsAnalyses s (s.finish d).2 [] := by
  have ht : KeepsAnalyses s { s with selection := none } [] := .of_store rfl
  obtain h | h | ⟨r, hr, h⟩ := s.finish_cases d
  all_goals rw [h]
  case inl     => exact .of_store rfl
  case inr.inl => exact ht
  case inr.inr => exact ht.keep hr d.result

theorem keepsAnalyses_locate : KeepsAnalyses s (s.locate fs id).2 [] := by
  have hs : KeepsAnalyses s s [] := .of_store rfl
  obtain h | ⟨r, hr, h⟩ := s.locate_cases fs id
  all_goals rw [h]
  case inl => exact hs
  case inr => exact ⟨(hs.keep hr _).subjects, hs.unasked⟩

theorem keepsAnalyses_location : KeepsAnalyses s (s.location fs id).2 [] := by
  obtain h | h := s.location_cases fs id
  all_goals rw [h]
  case inl => exact .of_store rfl
  case inr => exact s.keepsAnalyses_locate fs id

theorem keepsAnalyses_callers : KeepsAnalyses s (s.callers fs id).2
    ((s.withLog []).callers fs id).2.surroundings.memory.2 := by
  have hl := s.keepsAnalyses_location fs id
  have x := s.callers_listing fs id
  generalize ((s.withLog []).callers fs id).2.surroundings.memory.2 = log at x ⊢
  generalize (s.callers fs id).1 = answer, (s.callers fs id).2 = t at x ⊢
  cases x
  case unlocated ht   => rwa [ht] at hl
  case elsewhere ht _ => rwa [ht] at hl
  case kept ht _      => rwa [ht] at hl
  case built l t u n file r ctx ht _ hr hn =>
    rw [ht] at hl
    have hx := hl.expandNode fs ctx (.root file l.line)
    rw [hn] at hx
    have hr : u.store.get id = .ok r := (expandNode_eq hn).2.1 ▸ hr
    exact hx.setRecord hr rfl rfl

theorem keepsAnalyses_expand (way : List Nat) : KeepsAnalyses s (s.expand fs id way).2
    ((s.withLog []).expand fs id way).2.surroundings.memory.2 := by
  have hs : KeepsAnalyses s s [] := .of_store rfl
  cases ht : s.tree? id
  case none      =>
    obtain ⟨e, he⟩ := expand_treeless fs way ht
    obtain ⟨e', he'⟩ := expand_treeless (s := s.withLog []) fs way ht
    rw [he, he']
    exact hs
  case some tree =>
    have ht' : (s.withLog []).tree? id = some tree := ht
    cases hd : tree.descendant? way
    case none   =>
      rw [expand_nowhere fs ht hd, expand_nowhere fs ht' hd]
      exact hs
    case some n =>
      obtain ⟨r, ctx, hr, hc, he⟩ := expand_somewhere fs ht hd
      obtain ⟨r', ctx', _, hc', he'⟩ := expand_somewhere fs ht' hd
      obtain rfl : ctx = ctx' := Except.ok.inj <| hc.symm.trans hc'
      rw [he, he']
      exact (hs.expandNode fs ctx n).setRecord hr rfl rfl

-- The ways in which an analysis can end: with its answer, with the session that it leaves behind,
-- and with the questions to the oracle.
inductive Analyzing (s : Session σ) (id : Nat) :
    Except Failure (Option Analysis) → Session σ → List Oracle.Call → Prop where
  | unknown :
    s.store.size ≤ id →
    Analyzing s id (.error (.unknownRecord id)) s []
  | known {r : Record} {a : Analysis} :
    s.store.get id = .ok r →
    r.analysis = some a →
    Analyzing s id (.ok (some a)) s []
  | failed {r : Record} {e : Failure} {m : σ} :
    s.store.get id = .ok r →
    r.analysis = none →
    s.advisers.oracle.analyze r.message s.surroundings.memory = (.error e, m) →
    Analyzing s id (.ok none) { s with surroundings.memory := m } [.analyze r.message]
  | answered {r : Record} {a : Analysis} {m : σ} :
    s.store.get id = .ok r →
    r.analysis = none →
    s.advisers.oracle.analyze r.message s.surroundings.memory = (.ok a, m) →
    Analyzing s id (.ok (some a))
      (setRecord { s with surroundings.memory := m } id { r with analysis := some a })
      [.analyze r.message]

theorem analyze_analyzing : Analyzing s id (s.analyze id).1 (s.analyze id).2
    ((s.withLog []).analyze id).2.surroundings.memory.2 := by
  have hs : (s.withLog []).store = s.store := rfl
  by_cases hi : s.store.size ≤ id
  case pos =>
    simp only [analyze, hs, RecordStore.get_of_le hi]
    exact .unknown hi
  case neg =>
    obtain ⟨r, hr⟩ := RecordStore.get_of_lt (Nat.lt_of_not_le hi)
    cases ha : r.analysis
    case some a =>
      simp only [analyze, hs, hr, ha]
      exact .known hr ha
    case none   =>
      rcases hx : s.advisers.oracle.analyze r.message s.surroundings.memory with ⟨answer, m⟩
      have ho : (s.withLog []).advisers.oracle.analyze r.message
          (s.withLog []).surroundings.memory = (answer, m, [.analyze r.message]) := by
        simp [withLog, Surroundings.withLog, Advisers.logged, Oracle.logged, hx]
      simp only [analyze, hs, hr, ha, hx, ho]
      cases answer
      case error e => exact .failed hr ha hx
      case ok a    => exact .answered hr ha hx

end Operations

variable {answer : Except Failure (Option Analysis)}

-- An analysis of another record.
theorem Analyzing.subject?_ne (x : Analyzing s i answer t log) (h : id ≠ i) :
    t.subject? id = s.subject? id := by
  cases x
  case unknown  => rfl
  case known    => rfl
  case failed   => rfl
  case answered => exact subject?_setRecord_ne h _

-- A record is analyzed for which the oracle has answered already.
theorem Analyzing.eq_of_known {message : Text} {a : Analysis} (x : Analyzing s id answer t log)
    (h : s.subject? id = some (message, some a)) : answer = .ok (some a) ∧ t = s ∧ log = [] := by
  obtain ⟨r, hr, _, ha⟩ := exists_of_subject? h
  cases x
  case unknown hi         => cases hr.symm.trans <| RecordStore.get_of_le hi
  case known hr' ha'      =>
    cases hr.symm.trans hr'
    cases ha.symm.trans ha'
    exact ⟨rfl, rfl, rfl⟩
  case failed hr' ha' _   =>
    cases hr.symm.trans hr'
    cases ha.symm.trans ha'
  case answered hr' ha' _ =>
    cases hr.symm.trans hr'
    cases ha.symm.trans ha'

-- A record is analyzed for which the oracle has not answered yet.
theorem Analyzing.log_of_unanswered {message : Text} (x : Analyzing s id answer t log)
    (h : s.subject? id = some (message, none)) : log = [.analyze message] := by
  obtain ⟨r, hr, rfl, ha⟩ := exists_of_subject? h
  cases x
  case unknown hi       => cases hr.symm.trans <| RecordStore.get_of_le hi
  case known hr' ha'    =>
    cases hr.symm.trans hr'
    cases ha.symm.trans ha'
  case failed hr' _ _   =>
    cases hr.symm.trans hr'
    rfl
  case answered hr' _ _ =>
    cases hr.symm.trans hr'
    rfl

theorem Analyzing.eq_of_unknown (x : Analyzing s id answer t log) (h : s.store.size ≤ id) :
    answer = .error (.unknownRecord id) ∧ t = s ∧ log = [] := by
  have hn := RecordStore.get_of_le h
  cases x
  case unknown         => exact ⟨rfl, rfl, rfl⟩
  case known hr _      => cases hn.symm.trans hr
  case failed hr _ _   => cases hn.symm.trans hr
  case answered hr _ _ => cases hn.symm.trans hr

-- What is asked for is the analysis of the message of the record, if the record has none.
theorem Analyzing.of_mem_log {message : Text} (x : Analyzing s id answer t log)
    (h : .analyze message ∈ log) :
    ∃ r, s.store.get id = .ok r ∧ r.analysis = none ∧ r.message = message := by
  have eq_of_mem {t : Text} (hm : Oracle.Call.analyze message ∈ [.analyze t]) : t = message :=
    (Oracle.Call.analyze.inj <| List.mem_singleton.mp hm).symm
  cases x
  case unknown                => cases h
  case known                  => cases h
  case failed r _ _ hr ha _   => exact ⟨r, hr, ha, eq_of_mem h⟩
  case answered r _ _ hr ha _ => exact ⟨r, hr, ha, eq_of_mem h⟩

end Session

def Answer.isLoaded : Answer → Bool
  | loaded (.ok _) => true
  | _              => false

-- Whether a request is to analyze a record.
def Request.analyzes (id : Nat) : Request → Bool
  | analyze i => i == id
  | _         => false

namespace FrontEnd

variable {σ : Type} {c : FrontEnd σ} {q : Request} {requests : List Request} {id : Nat}
variable {message : Text} {a : Analysis}

theorem analyzing (c : FrontEnd σ) (id : Nat) :
    Session.Analyzing c.session id (c.session.analyze id).1 (c.step (.analyze id)).2.session
      (c.calls [.analyze id]) :=
  Session.analyze_analyzing ..

-- The answers of the oracle to what it is asked to analyze for a request.
def answers (c : FrontEnd σ) (q : Request) : List (Except Failure Analysis) :=
  (c.calls [q]).filterMap fun
    | .analyze t => some (c.session.advisers.oracle.analyze t c.session.surroundings.memory).1
    | .rank _    => none

-- The answers of the oracle to what it is asked about a record, in the course of some requests.
def replies (c : FrontEnd σ) (id : Nat) : List Request → List (Except Failure Analysis)
  | []     => []
  | q :: l => (if q.analyzes id then c.answers q else []) ++ (c.step q).2.replies id l

theorem keepsAnalyses_step (hq : ∀ id, q.analyzes id = false)
    (hl : (c.step q).1.isLoaded = false) :
    Session.KeepsAnalyses c.session (c.step q).2.session (c.calls [q]) := by
  have silent (hs : q.isSilent = true)
      (hk : Session.KeepsAnalyses c.session (c.step q).2.session []) :
      Session.KeepsAnalyses c.session (c.step q).2.session (c.calls [q]) :=
    c.calls_silent hs ▸ hk
  have load t (h : (Answer.loaded (c.session.load t).1).isLoaded = false) :
      Session.KeepsAnalyses c.session (c.session.load t).2 [] := by
    rcases c.session.load_cases t with ⟨e, he⟩ | ⟨n, store, he⟩
    case inl => rw [he]; exact .of_store rfl
    case inr => rw [he] at h; cases h
  cases q
  case load t          => exact silent rfl <| load t hl
  case loadFile file   =>
    refine silent rfl ?_
    simp only [step, Session.loadFile] at hl ⊢
    split at hl
    case h_1 => exact load _ hl
    case h_2 => exact .of_store rfl
  case analyze i       => simpa [Request.analyzes] using hq i
  case begin i         => exact silent rfl <| c.session.keepsAnalyses_beginLocate i
  case run k           =>
    refine silent rfl ?_
    simp only [step]
    split <;> exact .of_store rfl
  case finish k        =>
    refine silent rfl ?_
    simp only [step]
    split
    case h_1 => exact c.session.keepsAnalyses_finish _
    case h_2 => exact .of_store rfl
  case drop k          =>
    refine silent rfl ?_
    simp only [step]
    split <;> exact .of_store rfl
  case cancel k        =>
    refine silent rfl ?_
    simp only [step]
    split <;> exact .of_store rfl
  case locate i        => exact silent rfl <| c.session.keepsAnalyses_locate c.files i
  case callers i       => exact c.session.keepsAnalyses_callers c.files i
  case expand i way    => exact c.session.keepsAnalyses_expand c.files i way
  case write names b   => exact silent rfl <| .of_store rfl
  case delete names    => exact silent rfl <| .of_store rfl

-- No other log is loaded by some requests.
def InOneLog (c : FrontEnd σ) (requests : List Request) : Prop :=
  ∀ o ∈ c.observe requests, o.answer.isLoaded = false

theorem inOneLog_cons : c.InOneLog (q :: requests) ↔
    (c.step q).1.isLoaded = false ∧ (c.step q).2.InOneLog requests := by
  simp [InOneLog, observe]

theorem subject?_step (hl : (c.step q).1.isLoaded = false) (hq : q.analyzes id = false) :
    (c.step q).2.session.subject? id = c.session.subject? id := by
  cases q
  case analyze i =>
    have hi : id ≠ i := Ne.symm <| by simpa [Request.analyzes] using hq
    exact (c.analyzing i).subject?_ne hi
  all_goals exact (keepsAnalyses_step (fun _ => rfl) hl).subjects id

theorem subject?_run (h : c.InOneLog requests) (hq : ∀ q ∈ requests, q.analyzes id = false) :
    (c.run requests).session.subject? id = c.session.subject? id := by
  induction requests generalizing c
  case nil         => rfl
  case cons q l hi =>
    obtain ⟨hl, h⟩ := inOneLog_cons.mp h
    obtain ⟨hq, hq'⟩ := List.forall_mem_cons.mp hq
    exact (hi h hq').trans <| subject?_step hl hq

theorem eq_analyze (h : q.analyzes id = true) : q = .analyze id := by
  cases q
  case analyze i => rw [show i = id by simpa [Request.analyzes] using h]
  all_goals cases h

section Known

variable (hk : c.session.subject? id = some (message, some a))

include hk

theorem step_known : c.step (.analyze id) = (.analyzed (.ok (some a)), c) ∧
    c.calls [.analyze id] = [] := by
  obtain ⟨ha, hs, hc⟩ := (c.analyzing id).eq_of_known hk
  refine ⟨Prod.ext (congrArg Answer.analyzed ha) ?_, hc⟩
  exact congrArg (fun s : Session σ => { c with session := s }) hs

theorem known_step (hl : (c.step q).1.isLoaded = false) :
    (c.step q).2.session.subject? id = some (message, some a) := by
  cases hq : q.analyzes id
  case false => exact (subject?_step hl hq).trans hk
  case true  => rw [eq_analyze hq, (step_known hk).1, hk]

-- A record with an analysis keeps it, and the oracle is not asked about the record again.
theorem known_run (h : c.InOneLog requests) :
    (c.run requests).session.subject? id = some (message, some a) ∧ c.replies id requests = [] := by
  induction requests generalizing c
  case nil         => exact ⟨hk, rfl⟩
  case cons q l hi =>
    obtain ⟨hl, h⟩ := inOneLog_cons.mp h
    obtain ⟨hs, hr⟩ := hi (known_step hk hl) h
    refine ⟨hs, ?_⟩
    rw [replies, hr, List.append_nil]
    split
    case isTrue hq  => rw [eq_analyze hq, answers, (step_known hk).2, List.filterMap_nil]
    case isFalse    => rfl

end Known

-- The oracle does not answer, or the record has the answer from then on.
theorem answers_cases (c : FrontEnd σ) (id : Nat) :
    (∀ x ∈ c.answers (.analyze id), x.isOk = false) ∨
    ∃ message a, c.answers (.analyze id) = [.ok a] ∧
      (c.step (.analyze id)).2.session.subject? id = some (message, some a) := by
  have x := c.analyzing id
  unfold answers
  generalize (c.session.analyze id).1 = answer, (c.step (.analyze id)).2.session = t,
    c.calls [.analyze id] = log at x ⊢
  cases x
  case unknown                => exact .inl <| by simp
  case known                  => exact .inl <| by simp
  case failed r e m _ _ ho    => exact .inl <| by simp [ho, Except.isOk, Except.toBool]
  case answered r a m hr _ ho =>
    refine .inr ⟨r.message, a, by simp [ho], ?_⟩
    exact Session.subject?_of_get (Session.get_setRecord (s := { c.session with
      surroundings.memory := m }) hr _)

theorem countP_replies_le (h : c.InOneLog requests) (id : Nat) :
    (c.replies id requests).countP (·.isOk) ≤ 1 := by
  induction requests generalizing c
  case nil         => simp [replies]
  case cons q l hi =>
    obtain ⟨_, h⟩ := inOneLog_cons.mp h
    rw [replies, List.countP_append]
    split
    case isFalse   => simpa using hi h
    case isTrue hq =>
      obtain rfl := eq_analyze hq
      rcases c.answers_cases id with ha | ⟨message, a, ha, hk⟩
      case inl =>
        rw [List.countP_eq_zero.mpr fun x hx => by simp [ha x hx], Nat.zero_add]
        exact hi h
      case inr => simp [ha, (known_run hk h).2, Except.isOk, Except.toBool]

theorem step_unknown (h : c.session.store.size ≤ id) :
    c.step (.analyze id) = (.analyzed (.error (.unknownRecord id)), c) ∧
      c.calls [.analyze id] = [] := by
  obtain ⟨ha, hs, hc⟩ := (c.analyzing id).eq_of_unknown h
  refine ⟨Prod.ext (congrArg Answer.analyzed ha) ?_, hc⟩
  exact congrArg (fun s : Session σ => { c with session := s }) hs

-- An analysis that the oracle cannot give leaves all records as they are.
theorem step_failed {r : Record} {e : Failure} (hr : c.session.store.get id = .ok r)
    (ha : r.analysis = none)
    (ho : (c.session.advisers.oracle.analyze r.message c.session.surroundings.memory).1 =
      .error e) :
    (c.step (.analyze id)).1 = .analyzed (.ok none) ∧
      (c.step (.analyze id)).2.session.store = c.session.store := by
  rcases hx : c.session.advisers.oracle.analyze r.message c.session.surroundings.memory with ⟨x, m⟩
  obtain rfl : x = .error e := by rwa [hx] at ho
  simp [step, Session.analyze, hr, ha, hx]

-- In one log the oracle answers at most once for a record. Once a record has an analysis, it keeps
-- it and nobody is asked about the record again. Where the oracle cannot answer, all records stay
-- as they are, and whatever happens until the record is analyzed again, the oracle is asked again
-- then. Nobody is asked about an unknown record, and no request asks for the analysis of any other
-- record than the one that is to be analyzed.
theorem analyzed_once (c : FrontEnd σ) {requests : List Request} (h : c.InOneLog requests)
    (id : Nat) :
    let d := c.run requests
    (c.replies id requests).countP (·.isOk) ≤ 1 ∧
    (∀ r a, c.session.store.get id = .ok r → r.analysis = some a →
      c.replies id requests = [] ∧
      (∃ r', d.session.store.get id = .ok r' ∧ r'.analysis = some a) ∧
      d.step (.analyze id) = (.analyzed (.ok (some a)), d) ∧ d.calls [.analyze id] = []) ∧
    (∀ r e, d.session.store.get id = .ok r → r.analysis = none →
      (d.session.advisers.oracle.analyze r.message d.session.surroundings.memory).1 = .error e →
      let f := (d.step (.analyze id)).2
      (d.step (.analyze id)).1 = .analyzed (.ok none) ∧ f.session.store = d.session.store ∧
      d.calls [.analyze id] = [.analyze r.message] ∧
      ∀ later, f.InOneLog later → (∀ q ∈ later, q.analyzes id = false) →
        (f.run later).calls [.analyze id] = [.analyze r.message]) ∧
    (d.session.store.size ≤ id →
      d.step (.analyze id) = (.analyzed (.error (.unknownRecord id)), d) ∧
      d.calls [.analyze id] = []) ∧
    ∀ q message, .analyze message ∈ d.calls [q] → ∃ i r, q = .analyze i ∧
      d.session.store.get i = .ok r ∧ r.analysis = none ∧ r.message = message := by
  intro d
  refine ⟨countP_replies_le h id, ?known, ?failed, ?unknown, ?asked⟩
  case known   =>
    intro r a hr ha
    obtain ⟨hk, hn⟩ := known_run (ha ▸ Session.subject?_of_get hr) h
    obtain ⟨r', hr', _, ha'⟩ := Session.exists_of_subject? hk
    exact ⟨hn, ⟨r', hr', ha'⟩, step_known hk⟩
  case failed  =>
    intro r e hr ha ho f
    obtain ⟨hf, hs⟩ := step_failed hr ha ho
    refine ⟨hf, hs, (d.analyzing id).log_of_unanswered (ha ▸ Session.subject?_of_get hr), ?_⟩
    intro later hl hq
    have hr : f.session.store.get id = .ok r := hs ▸ hr
    have hk := (subject?_run hl hq).trans (ha ▸ Session.subject?_of_get hr)
    exact ((f.run later).analyzing id).log_of_unanswered hk
  case unknown => exact step_unknown
  case asked   =>
    intro q message hm
    cases q
    case analyze i      =>
      obtain ⟨r, hr, ha, he⟩ := (d.analyzing i).of_mem_log hm
      exact ⟨i, r, rfl, hr, ha, he⟩
    case callers i      => cases (d.session.keepsAnalyses_callers d.files i).unasked message hm
    case expand i way   => cases (d.session.keepsAnalyses_expand d.files i way).unasked message hm
    all_goals
      rw [d.calls_silent rfl] at hm
      cases hm

-- A log with two records, whose oracle cannot answer its first question.
def delayed : FrontEnd Bool :=
  let oracle : Oracle Bool := {
    analyze t m := (if m then .ok (Lexical.analyze t) else .error Oracle.unavailable, true)
    rank _ m    := (.error Oracle.unavailable, m) }
  let session : Session Bool := .new ⟨['.']⟩ Settings.default ⟨oracle, .text⟩ false
  run ⟨session, ⟨.dir [], []⟩, []⟩ [.load ['a', '\n', 'b']]

-- The first record is analyzed in vain, then with an answer, and a third time.
theorem analyzed_once_delayed :
    let requests : List Request :=
      [.analyze 0, .begin 0, .locate 0, .analyze 0, .callers 0, .analyze 1, .analyze 0, .analyze 2]
    (delayed.replies 0 requests).map (·.isOk) = [false, true] ∧
    (delayed.replies 0 requests).countP (·.isOk) ≤ 1 ∧
    (delayed.run requests).calls [.analyze 2] = [] := by
  intro requests
  have h : delayed.InOneLog requests := by
    unfold InOneLog
    decide +kernel
  obtain ⟨_, _, _, unknown, _⟩ := analyzed_once delayed h 2
  exact ⟨by decide +kernel, (analyzed_once delayed h 0).1, (unknown (by decide +kernel)).2⟩

end FrontEnd

end LogOrigin
