import LogOrigin.Proofs.Session.Listing

-- A session keeps the callers that it has listed for a record. Also callers that nobody could rank
-- stay as they are, until another log is loaded or the record gets another location.

namespace LogOrigin

namespace CallerNode

variable {m n : CallerNode}

theorem isExpanded_of_outline (h : m.outline = n.outline) : m.isExpanded = n.isExpanded := by
  have h := congrArg (·.2.isSome) h
  simpa [outline, isExpanded] using h

-- A node has children, none of which has been ranked.
def Unranked (n : CallerNode) : Prop :=
  ∃ infos, n.outline.2 = some infos ∧ infos ≠ [] ∧
    ∀ i ∈ infos, i.explanation = Expansion.unranked

theorem Unranked.isExpanded (h : n.Unranked) : n.isExpanded = true := by
  have ⟨infos, hi, _⟩ := h
  have hs := congrArg Option.isSome hi
  simpa [outline, CallerNode.isExpanded] using hs

end CallerNode

namespace Session

variable {σ : Type} (s : Session σ) (fs : Files) (id : Nat) {i : Nat} {n : CallerNode}

section Trees

variable {s}

theorem tree?_setRecord_ne (h : id ≠ i) (new : Record) :
    (s.setRecord i new).tree? id = s.tree? id := by
  simp [tree?, setRecord, RecordStore.set, List.getElem?_set_ne h.symm]

theorem tree?_setRecord {r : Record} (hr : s.store.get i = .ok r) (new : Record)
    (hc : new.callers = r.callers) : (s.setRecord i new).tree? id = s.tree? id := by
  by_cases hi : id = i
  case pos => rw [hi, tree?_of_get (get_setRecord hr new), tree?_of_get hr, hc]
  case neg => exact tree?_setRecord_ne id hi new

end Trees

theorem tree?_load {t : Text} (h : (s.load t).2.generation = s.generation) :
    (s.load t).2.tree? id = s.tree? id := by
  rcases s.load_cases t with ⟨e, he⟩ | ⟨k, store, he⟩
  case inl => rw [he]
  case inr =>
    rw [he] at h
    exact absurd h <| Nat.succ_ne_self _

theorem tree?_loadFile {fs : Files} {file : FilePath}
    (h : (s.loadFile fs file).2.generation = s.generation) :
    (s.loadFile fs file).2.tree? id = s.tree? id := by
  unfold loadFile at h ⊢
  split at h
  case h_1 ht => exact s.tree?_load id h
  case h_2 ht => rfl

theorem tree?_beginLocate (i : Nat) : (s.beginLocate i).2.tree? id = s.tree? id := by
  cases hr : s.store.get i
  case error => rw [beginLocate_unknown hr]
  case ok    =>
    cases hf : s.inFlight i
    case true  => rw [beginLocate_inFlight hr hf]
    case false => rw [beginLocate_free hr hf]; rfl

theorem tree?_analyze (i : Nat) : (s.analyze i).2.tree? id = s.tree? id := by
  obtain h | ⟨m, h | ⟨r, a, hr, h⟩⟩ := s.analyze_cases i
  all_goals rw [h]
  case inr.inl => rfl
  case inr.inr =>
    exact tree?_setRecord (s := { s with surroundings.memory := m }) id hr
      { r with analysis := a } rfl

theorem callers_keep (r : Record) (result : Except Failure Resolution) :
    (Resolver.keep r result).callers = r.callers := by
  unfold Resolver.keep
  split <;> rfl

theorem tree?_locate (i : Nat) : (s.locate fs i).2.tree? id = s.tree? id := by
  obtain h | ⟨r, hr, h⟩ := s.locate_cases fs i
  all_goals rw [h]
  exact tree?_setRecord id hr _ <| callers_keep ..

theorem tree?_finish (d : CompletedLocate) : (s.finish d).2.tree? id = s.tree? id := by
  obtain h | h | ⟨r, hr, h⟩ := s.finish_cases d
  all_goals rw [h]
  case inr.inl => rfl
  case inr.inr =>
    exact tree?_setRecord (s := { s with selection := none }) id hr _ <| callers_keep ..

theorem tree?_location (i : Nat) : (s.location fs i).2.tree? id = s.tree? id := by
  obtain h | h := s.location_cases fs i
  all_goals rw [h]
  exact s.tree?_locate fs id i

theorem tree?_callers_ne (h : id ≠ i) : (s.callers fs i).2.tree? id = s.tree? id := by
  have hl := s.tree?_location fs id i
  obtain he | ⟨ctx, n, r, he⟩ := s.callers_cases fs i
  all_goals rw [he]
  case inl => exact hl
  case inr => exact (tree?_setRecord_ne id h r).trans hl

theorem tree?_expand_ne (h : id ≠ i) (way : List Nat) :
    (s.expand fs i way).2.tree? id = s.tree? id := by
  obtain he | ⟨ctx, n, r, he⟩ := s.expand_cases fs i way
  all_goals rw [he]
  exact tree?_setRecord_ne id h r

-- An expansion somewhere in the tree of a record with an expanded root changes nothing about the
-- root and its children.
theorem tree?_expand (h : s.tree? id = some n) (hn : n.isExpanded = true) (way : List Nat) :
    ∃ m, (s.expand fs id way).2.tree? id = some m ∧ m.outline = n.outline := by
  have ⟨r, hr⟩ := exists_of_tree? h
  have hc := tree?_of_get hr ▸ h
  obtain ⟨ctx, hx⟩ : ∃ ctx, s.context id = .ok ctx := by simp [context, hr]
  simp only [expand, hx, hr, hc]
  cases hd : n.descendant? way
  case none   => exact ⟨n, h, rfl⟩
  case some d =>
    have hs : (s.expandNode fs ctx d).2.store.get id = .ok r := hr
    refine ⟨_, tree?_of_get (get_setRecord hs _), ?_⟩
    cases way
    case nil =>
      obtain rfl := Option.some.inj hd
      rw [expandNode, Expansion.expand_expanded hn]
      rfl
    case cons => exact CallerNode.outline_replaceAt hd <| Expansion.info_expand ..

theorem Lists.of_same {s t : Session σ} {fs : Files} {id : Nat} {m n : CallerNode}
    (h : s.Lists fs id n) (hm : t.tree? id = some m) (ho : m.outline = n.outline)
    (hl : t.location? id = s.location? id) (hr : t.resolver.root = s.resolver.root) :
    t.Lists fs id m where
  tree  := hm
  place := by
    have hi : m.info = n.info := congrArg (·.1) ho
    simpa [hl, hr, isTreeAt, hi] using h.place

end Session

namespace FrontEnd

variable {σ : Type} {c d e : FrontEnd σ} {id : Nat} {n : CallerNode} {q : Request}
variable {requests : List Request}

-- Neither the files nor the log nor the location of a record have changed.
structure Steady (id : Nat) (c d : FrontEnd σ) : Prop where
  files    : d.files = c.files
  log      : d.session.generation = c.session.generation
  location : d.session.location? id = c.session.location? id

theorem Steady.of_common (h : Steady id c d) (h' : Steady id c e) : Steady id d e where
  files    := h'.files.trans h.files.symm
  log      := h'.log.trans h.log.symm
  location := h'.location.trans h.location.symm

theorem same_step (c : FrontEnd σ) (q : Request) :
    Session.SameSetup c.session (c.step q).2.session := by
  cases q
  case load t         => exact c.session.same_load t
  case loadFile file  => exact c.session.same_loadFile c.files file
  case analyze id     => exact c.session.same_analyze id
  case begin id       => exact c.session.same_beginLocate id
  case run            =>
    simp only [step]
    split
    case h_1 => exact c.session.same_run c.files _
    case h_2 => exact .refl _
  case finish         =>
    simp only [step]
    split
    case h_1 => exact c.session.same_finish _
    case h_2 => exact .refl _
  case drop           =>
    simp only [step]
    split <;> exact ⟨rfl, rfl, .refl _⟩
  case cancel         =>
    simp only [step]
    split <;> exact ⟨rfl, rfl, .refl _⟩
  case locate id      => exact c.session.same_locate c.files id
  case callers id     => exact c.session.same_callers c.files id
  case expand id way  => exact c.session.same_expand c.files id way
  case write names b  => exact .refl _
  case delete names   => exact .refl _

-- Whatever is requested in the same log, the root of the tree and its children stay.
theorem tree?_step (h : c.session.Lists c.files id n) (hn : n.isExpanded = true)
    (hg : (c.step q).2.session.generation = c.session.generation) :
    ∃ m, (c.step q).2.session.tree? id = some m ∧ m.outline = n.outline := by
  have unchanged {t : Session σ} (ht : t.tree? id = c.session.tree? id) :
      ∃ m, t.tree? id = some m ∧ m.outline = n.outline :=
    ⟨n, ht.trans h.tree, rfl⟩
  cases q
  case load t         => exact unchanged <| c.session.tree?_load id hg
  case loadFile file  => exact unchanged <| c.session.tree?_loadFile id hg
  case analyze i      => exact unchanged <| c.session.tree?_analyze id i
  case begin i        => exact unchanged <| c.session.tree?_beginLocate id i
  case run k          => exact unchanged <| by simp only [step]; split <;> rfl
  case finish k       =>
    simp only [step]
    split
    case h_1 => exact unchanged <| c.session.tree?_finish id _
    case h_2 => exact unchanged rfl
  case drop k         => exact unchanged <| by simp only [step]; split <;> rfl
  case cancel k       => exact unchanged <| by simp only [step]; split <;> rfl
  case locate i       => exact unchanged <| c.session.tree?_locate c.files id i
  case callers i      =>
    by_cases hi : id = i
    case pos =>
      rw [step, ← hi, h.callers_eq]
      exact unchanged rfl
    case neg => exact unchanged <| c.session.tree?_callers_ne c.files id hi
  case expand i way   =>
    by_cases hi : id = i
    case pos => exact hi ▸ c.session.tree?_expand c.files id h.tree hn way
    case neg => exact unchanged <| c.session.tree?_expand_ne c.files id hi way
  case write names b  => exact unchanged rfl
  case delete names   => exact unchanged rfl

theorem lists_step (h : c.session.Lists c.files id n) (hn : n.isExpanded = true)
    (hs : c.Steady id (c.step q).2) :
    ∃ m, (c.step q).2.session.Lists (c.step q).2.files id m ∧ m.outline = n.outline := by
  have ⟨m, hm, ho⟩ := tree?_step h hn hs.log
  have hl := h.of_same hm ho hs.location (c.same_step q).repository.root
  exact ⟨m, hs.files ▸ hl, ho⟩

theorem lists_run (h : c.session.Lists c.files id n) (hn : n.isExpanded = true)
    (hs : ∀ l, l <+: requests → c.Steady id (c.run l)) :
    ∃ m, (c.run requests).session.Lists (c.run requests).files id m ∧ m.outline = n.outline := by
  induction requests generalizing c n
  case nil              => exact ⟨n, h, rfl⟩
  case cons q later hi =>
    have first : c.Steady id (c.step q).2 := hs [q] (List.prefix_append [q] later)
    have ⟨m, hm, ho⟩ := lists_step h hn first
    have hx := (CallerNode.isExpanded_of_outline ho).trans hn
    have ⟨k, hk, ho'⟩ := hi hm hx fun l hl =>
      first.of_common <| hs (q :: l) (List.cons_prefix_cons.mpr ⟨rfl, hl⟩)
    exact ⟨k, hk, ho'.trans ho⟩

theorem step_callers (h : c.session.Lists c.files id n) :
    c.step (.callers id) = (.listed (.ok n), c) := by
  rw [step, h.callers_eq]

theorem step_expand_root (h : c.session.Lists c.files id n) (hn : n.isExpanded = true) :
    c.step (.expand id []) = (.expanded (.ok (some n)), c) := by
  rw [step, h.expand_root hn]

-- A tree whose root is expanded is there for everybody, and nobody is asked about it.
theorem calls_kept (h : c.session.Lists c.files id n) (hn : n.isExpanded = true) :
    c.calls [.callers id, .expand id []] = [] := by
  have hl : (c.withLog []).session.Lists (c.withLog []).files id n := ⟨h.tree, h.place⟩
  simp only [calls, run, step_callers hl, step_expand_root hl hn]
  rfl

theorem listing (c : FrontEnd σ) (id : Nat) :
    Session.Listing c.session c.files id (c.session.callers c.files id).1
      (c.step (.callers id)).2.session (c.calls [.callers id]) :=
  Session.callers_listing ..

-- A listing for which the oracle is asked in vain shows callers that nobody has ranked, and nothing
-- new is remembered about them. Nevertheless, while the files, the log and the location of the
-- record stay the same, the record keeps these callers: they are what every further attempt shows,
-- and no further attempt asks the oracle or changes anything.
theorem unranked_callers_kept (c : FrontEnd σ) (id : Nat) (requests : List Request)
    {query : RankRequest} {failure : Failure}
    (hq : c.calls [.callers id] = [.rank query])
    (ho : (c.session.advisers.oracle.rank query c.session.surroundings.memory).1 = .error failure)
    (hs : ∀ l, l <+: requests →
      (c.step (.callers id)).2.Steady id ((c.step (.callers id)).2.run l)) :
    let d := (c.step (.callers id)).2
    let e := d.run requests
    d.session.surroundings.cache = c.session.surroundings.cache ∧
    ∃ n m, (c.step (.callers id)).1 = .listed (.ok n) ∧ n.Unranked ∧ m.outline = n.outline ∧
      e.step (.callers id) = (.listed (.ok m), e) ∧
      e.step (.expand id []) = (.expanded (.ok (some m)), e) ∧
      e.calls [.callers id, .expand id []] = [] := by
  intro d e
  have x := c.listing id
  rw [hq] at x
  obtain ⟨hc, n, kids, hn, hk, hne, hu⟩ := x.of_failed ho
  rw [hn] at x
  have unranked : n.Unranked := by
    refine ⟨kids.map (·.info), by simp [CallerNode.outline, hk], by simpa using hne, ?_⟩
    simpa using hu
  obtain ⟨m, hm, outline⟩ := lists_run (c := d) x.lists unranked.isExpanded hs
  have hx := (CallerNode.isExpanded_of_outline outline).trans unranked.isExpanded
  exact ⟨hc, n, m, congrArg Answer.listed hn, unranked, outline, step_callers hm,
    step_expand_root hm hx, calls_kept hm hx⟩

end FrontEnd

-- What is said about the callers of the node that an answer shows.
def Answer.explanations : Answer → List Text
  | listed (.ok n)          => (n.children.getD []).map (·.info.explanation)
  | expanded (.ok (some n)) => (n.children.getD []).map (·.info.explanation)
  | _                       => []

-- Cannot answer the first time, and from then on takes every candidate for certain.
def Oracle.recovering : Oracle Bool where
  analyze _ m := (.error unavailable, m)
  rank r m    :=
    let certain (c : CallCandidate) : RankedCall := ⟨c.file, c.line, c.function, .one, ['!']⟩
    (if m then .ok (r.candidates.map certain) else .error unavailable, true)

namespace FrontEnd

-- A log with one record that names its origin, in a function with one call.
def recovering : FrontEnd Bool :=
  let file : FilePath := ⟨['a', '.', 'b']⟩
  let symbols : SymbolIndex :=
    ⟨fun _ _ _ => some ⟨['f'], 3, 0, 4⟩, fun _ _ _ _ => .known [⟨file, 7⟩]⟩
  let session : Session Bool := .new ⟨['.']⟩ Settings.default ⟨.recovering, symbols⟩ false
  run ⟨session, ⟨.dir [(file.text, .file .empty)], []⟩, []⟩ [.load (file.text ++ [':', '6'])]

def recovering.query : RankRequest :=
  ⟨['a', '.', 'b', ':', '6'], none, [], [⟨⟨['a', '.', 'b']⟩, 7, ['f'], []⟩]⟩

-- Also after somebody has expanded the caller the oracle is not asked about the record again,
-- though it can answer by then.
theorem unranked_callers_kept_recovering :
    let e := (recovering.step (.callers 0)).2.run [.expand 0 [0]]
    e.session.surroundings.memory = true ∧
    (∃ ranked, (Oracle.recovering.rank recovering.query true).1 = .ok ranked) ∧
    ∃ m, e.step (.callers 0) = (.listed (.ok m), e) ∧ m.Unranked := by
  have hq : recovering.calls [.callers 0] = [.rank recovering.query] := by decide +kernel
  have hs : ∀ l, l <+: [.expand 0 [0]] → (recovering.step (.callers 0)).2.Steady 0
      ((recovering.step (.callers 0)).2.run l) := by
    intro l hl
    simp only [List.prefix_cons_iff, List.prefix_nil] at hl
    rcases hl with rfl | ⟨_, rfl, rfl⟩
    · exact ⟨rfl, rfl, rfl⟩
    · exact ⟨rfl, by decide +kernel, by decide +kernel⟩
  have ⟨_, n, m, _, ⟨infos, hi⟩, ho, hm, _⟩ :=
    unranked_callers_kept recovering 0 [.expand 0 [0]] hq rfl hs
  exact ⟨by decide +kernel, ⟨_, rfl⟩, m, hm, infos, ho ▸ hi⟩

-- The callers are listed in vain, then listed and expanded again when the oracle can answer, which
-- only happens once the log is loaded anew.
theorem unranked_callers_reloaded :
    let d := (recovering.step (.callers 0)).2
    let e := (d.step (.load ['a', '.', 'b', ':', '6'])).2
    let answer (c : FrontEnd Bool) :=
      (Oracle.recovering.rank recovering.query c.session.surroundings.memory).1.toOption
    recovering.calls [.callers 0] = [.rank recovering.query] ∧ answer recovering = none ∧
    (recovering.step (.callers 0)).1.explanations = [Expansion.unranked] ∧
    (answer d).isSome ∧ d.calls [.callers 0, .expand 0 []] = [] ∧
    (d.step (.callers 0)).1.explanations = [Expansion.unranked] ∧
    (d.step (.expand 0 [])).1.explanations = [Expansion.unranked] ∧
    e.calls [.callers 0] = [.rank recovering.query] ∧
    (e.step (.callers 0)).1.explanations = [['!']] := by
  decide +kernel

end FrontEnd

end LogOrigin
