import LogOrigin.Session

-- What the operations of a session leave alone, and what those change that are about the selection.

namespace LogOrigin

theorem RecordStore.get_of_lt {s : RecordStore} {id : Nat} (h : id < s.size) :
    ∃ r, s.get id = .ok r :=
  ⟨s.records[id], get_eq_ok.mpr <| List.getElem?_eq_getElem h⟩

theorem RecordStore.lt_of_get {s : RecordStore} {id : Nat} {r : Record} (h : s.get id = .ok r) :
    id < s.size :=
  (List.getElem?_eq_some_iff.mp <| get_eq_ok.mp h).1

-- A record that is put back changes nothing.
theorem RecordStore.set_get {s : RecordStore} {id : Nat} {r : Record} (h : s.get id = .ok r) :
    s.set id r = s := by
  have ⟨hi, hr⟩ := List.getElem?_eq_some_iff.mp <| get_eq_ok.mp h
  rw [set, ← hr, List.set_getElem_self]

theorem RecordStore.get_set_ne {s : RecordStore} {id i : Nat} (r : Record) (h : i ≠ id) :
    (s.set id r).get i = s.get i := by
  simp [get, set, List.getElem?_set_ne h.symm]

namespace Session

variable {σ : Type} {s t u : Session σ}

-- A later state of a session with the same log and the same selection. What is known about the
-- records and the repository may have changed.
structure Continues (s t : Session σ) : Prop where
  generation : t.generation = s.generation
  tokens     : t.tokens = s.tokens
  selection  : t.selection = s.selection
  size       : t.store.size = s.store.size

namespace Continues

theorem refl (s : Session σ) : Continues s s :=
  ⟨rfl, rfl, rfl, rfl⟩

theorem trans (h₁ : Continues s t) (h₂ : Continues t u) : Continues s u where
  generation := h₂.generation.trans h₁.generation
  tokens     := h₂.tokens.trans h₁.tokens
  selection  := h₂.selection.trans h₁.selection
  size       := h₂.size.trans h₁.size

theorem setRecord (h : Continues s t) (id : Nat) (r : Record) : Continues s (t.setRecord id r) :=
  h.trans ⟨rfl, rfl, rfl, List.length_set ..⟩

theorem withResolver (h : Continues s t) (r : Resolver) : Continues s (t.withResolver r) :=
  h.trans ⟨rfl, rfl, rfl, rfl⟩

end Continues

-- What the operations can do to a session.
section Cases

theorem analyze_cases (s : Session σ) (id : Nat) :
    (s.analyze id).2 = s ∨ ∃ m, let t := { s with surroundings.memory := m }
      (s.analyze id).2 = t ∨
      ∃ r a, s.store.get id = .ok r ∧
        (s.analyze id).2 = t.setRecord id { r with analysis := a } := by
  unfold analyze
  split
  case h_1      => exact .inl rfl
  case h_2 r hr =>
    split
    case h_1 => exact .inl rfl
    case h_2 =>
      generalize s.advisers.oracle.analyze r.message s.surroundings.memory = x
      obtain ⟨answer, m⟩ := x
      cases answer
      case error => exact .inr ⟨m, .inl rfl⟩
      case ok a  => exact .inr ⟨m, .inr ⟨r, some a, hr, rfl⟩⟩

theorem locate_cases (s : Session σ) (fs : Files) (id : Nat) :
    (s.locate fs id).2 = s ∨ ∃ r, s.store.get id = .ok r ∧
      let x := s.resolver.resolve fs r false
      (s.locate fs id).2 = (s.setRecord id (Resolver.keep r x.1)).withResolver x.2 := by
  unfold locate
  split
  case h_1      => exact .inl rfl
  case h_2 r hr => exact .inr ⟨r, hr, rfl⟩

theorem location_cases (s : Session σ) (fs : Files) (id : Nat) :
    (s.location fs id).2 = s ∨ (s.location fs id).2 = (s.locate fs id).2 := by
  unfold location
  split
  case h_1 => exact .inl rfl
  case h_2 =>
    split
    case h_1 => exact .inl rfl
    case h_2 => split <;> simp_all

theorem treeAt_cases (s : Session σ) (fs : Files) (id : Nat) (file : FilePath) (line : Nat) :
    (s.treeAt fs id file line).2 = s ∨ ∃ ctx n r,
      (s.treeAt fs id file line).2 = (s.expandNode fs ctx n).2.setRecord id r := by
  unfold treeAt
  split
  case h_1 => exact .inl rfl
  case h_2 =>
    split
    case h_1 => exact .inl rfl
    case h_2 =>
      split
      case h_1 => exact .inl rfl
      case h_2 => exact .inr ⟨_, _, _, rfl⟩

theorem callers_cases (s : Session σ) (fs : Files) (id : Nat) :
    let t := (s.location fs id).2
    (s.callers fs id).2 = t ∨ ∃ ctx n r,
      (s.callers fs id).2 = (t.expandNode fs ctx n).2.setRecord id r := by
  unfold callers
  obtain ⟨result, t⟩ := s.location fs id
  cases result
  case error => exact .inl rfl
  case ok    =>
    dsimp only
    split
    case h_1 => exact .inl rfl
    case h_2 => exact t.treeAt_cases ..

theorem expand_cases (s : Session σ) (fs : Files) (id : Nat) (way : List Nat) :
    (s.expand fs id way).2 = s ∨ ∃ ctx n r,
      (s.expand fs id way).2 = (s.expandNode fs ctx n).2.setRecord id r := by
  unfold expand
  split
  case h_1 => exact .inl rfl
  case h_2 => exact .inl rfl
  case h_3 =>
    split
    case h_1 => exact .inl rfl
    case h_2 =>
      split
      case h_1 => exact .inl rfl
      case h_2 => exact .inr ⟨_, _, _, rfl⟩

end Cases

theorem continues_analyze (s : Session σ) (id : Nat) : Continues s (s.analyze id).2 := by
  have hm m : Continues s { s with surroundings.memory := m } := ⟨rfl, rfl, rfl, rfl⟩
  obtain h | ⟨m, h | ⟨r, a, _, h⟩⟩ := s.analyze_cases id
  all_goals rw [h]
  case inl     => exact .refl s
  case inr.inl => exact hm m
  case inr.inr => exact (hm m).setRecord ..

theorem continues_run (s : Session σ) (fs : Files) (p : PendingLocate) :
    Continues s (s.run fs p).2 :=
  .withResolver (.refl s) _

theorem continues_locate (s : Session σ) (fs : Files) (id : Nat) :
    Continues s (s.locate fs id).2 := by
  obtain h | ⟨r, _, h⟩ := s.locate_cases fs id
  all_goals rw [h]
  case inl => exact .refl s
  case inr => exact .withResolver (.setRecord (.refl s) ..) _

theorem continues_location (s : Session σ) (fs : Files) (id : Nat) :
    Continues s (s.location fs id).2 := by
  obtain h | h := s.location_cases fs id
  all_goals rw [h]
  case inl => exact .refl s
  case inr => exact s.continues_locate fs id

theorem continues_expandNode (s : Session σ) (fs : Files) (ctx : ExpansionContext)
    (n : CallerNode) : Continues s (s.expandNode fs ctx n).2 :=
  ⟨rfl, rfl, rfl, rfl⟩

theorem continues_callers (s : Session σ) (fs : Files) (id : Nat) :
    Continues s (s.callers fs id).2 := by
  have hl := s.continues_location fs id
  obtain h | ⟨ctx, n, r, h⟩ := s.callers_cases fs id
  all_goals rw [h]
  case inl => exact hl
  case inr => exact hl.trans <| .setRecord (continues_expandNode ..) ..

theorem continues_expand (s : Session σ) (fs : Files) (id : Nat) (way : List Nat) :
    Continues s (s.expand fs id way).2 := by
  obtain h | ⟨ctx, n, r, h⟩ := s.expand_cases fs id way
  all_goals rw [h]
  case inl => exact .refl s
  case inr => exact .setRecord (continues_expandNode ..) ..

section Selecting

variable {id : Nat} {token : CancellationToken} {d : CompletedLocate}

-- The selection is the search with a token.
def Selects (s : Session σ) (token : CancellationToken) : Prop :=
  ∃ y, s.selection = some y ∧ y.token = token

theorem issued_cancelSelection (s : Session σ) :
    s.cancelSelection.tokens.issued = s.tokens.issued := by
  unfold cancelSelection
  split <;> rfl

theorem cancelSelection_eq (s : Session σ) :
    s.cancelSelection = { s with tokens := s.cancelSelection.tokens } := by
  unfold cancelSelection
  split <;> rfl

theorem isCancelled_cancelSelection (s : Session σ) (token : CancellationToken) :
    s.cancelSelection.tokens.isCancelled token = true ↔
      s.Selects token ∨ s.tokens.isCancelled token = true := by
  unfold cancelSelection Selects
  cases s.selection
  case none   => simp
  case some y => simp [eq_comm (a := token)]

-- A load that fails changes nothing, and any other one ends the search of the selection.
theorem load_cases (s : Session σ) (t : Text) :
    (∃ e, s.load t = (.error e, s)) ∨
    (∃ n store, s.load t = (.ok n, { s with
      store        := store
      surroundings := forget s.surroundings
      generation   := s.generation + 1
      tokens       := s.cancelSelection.tokens
      selection    := none })) := by
  unfold load
  split
  case h_1 e _ _     => exact .inl ⟨e, rfl⟩
  case h_2 n store _ =>
    rw [cancelSelection_eq]
    exact .inr ⟨n, store, rfl⟩

theorem beginLocate_unknown {e : Failure} (h : s.store.get id = .error e) :
    s.beginLocate id = (.error e, s) := by
  rw [beginLocate, h]

theorem beginLocate_inFlight {r : Record} (h : s.store.get id = .ok r) (hf : s.inFlight id = true) :
    s.beginLocate id = (.ok none, s) := by
  simp [beginLocate, h, hf]

theorem beginLocate_free {r : Record} (h : s.store.get id = .ok r) (hf : s.inFlight id = false) :
    s.beginLocate id = (.ok (some ⟨id, ⟨s.tokens.issued⟩, s.generation, r⟩), { s with
      tokens    := s.cancelSelection.tokens.issue.2
      selection := some ⟨id, ⟨s.tokens.issued⟩, true⟩ }) := by
  have hi := issued_cancelSelection s
  have hc := cancelSelection_eq s
  generalize s.cancelSelection.tokens = tokens at hi hc
  simp only [beginLocate, h, hf, hc, Cancellations.issue, hi]
  simp

-- What a handle is, and what has become of the session that has given it out.
theorem beginLocate_some {p : PendingLocate} (h : (s.beginLocate id).1 = .ok (some p)) :
    ∃ r, s.store.get id = .ok r ∧ p = ⟨id, ⟨s.tokens.issued⟩, s.generation, r⟩ ∧
      (s.beginLocate id).2 = { s with
        tokens    := s.cancelSelection.tokens.issue.2
        selection := some ⟨id, ⟨s.tokens.issued⟩, true⟩ } := by
  cases hr : s.store.get id
  case error =>
    rw [beginLocate_unknown hr] at h
    cases h
  case ok r  =>
    cases hf : s.inFlight id
    case true  =>
      rw [beginLocate_inFlight hr hf] at h
      cases h
    case false =>
      rw [beginLocate_free hr hf] at h ⊢
      cases h
      exact ⟨r, rfl, rfl, rfl⟩

theorem inFlight_iff : s.inFlight id = true ↔
    ∃ y, s.selection = some y ∧ y.id = id ∧ s.tokens.isCancelled y.token = false ∧
      y.running = true := by
  simp [inFlight, Option.any_eq_true, and_assoc]

theorem isCurrent_iff :
    s.isCurrent d = true ↔ d.generation = s.generation ∧ s.Selects d.token := by
  simp [isCurrent, Selects, Option.any_eq_true]

theorem finish_stale (h : s.isCurrent d = false) : s.finish d = (.ok none, s) := by
  simp [finish, h]

theorem finish_current {r : Record} (h : s.isCurrent d = true) (hr : s.store.get d.id = .ok r) :
    s.finish d = (d.result.map some,
      setRecord { s with selection := none } d.id (Resolver.keep r d.result)) := by
  have hs : setRecord { s with selection := none } d.id r = { s with selection := none } := by
    rw [setRecord, RecordStore.set_get hr]
  cases hd : d.result
  case error => simp [finish, h, hd, Resolver.keep, hs, Except.map]
  case ok a  =>
    cases a
    all_goals simp [finish, h, hd, hr, Resolver.keep, hs, Except.map]

theorem finish_cases (s : Session σ) (d : CompletedLocate) :
    (s.finish d).2 = s ∨ let t := { s with selection := none }
      (s.finish d).2 = t ∨ ∃ r, s.store.get d.id = .ok r ∧
        (s.finish d).2 = t.setRecord d.id (Resolver.keep r d.result) := by
  cases hc : s.isCurrent d
  case false => exact .inl <| by rw [finish_stale hc]
  case true  =>
    cases hr : s.store.get d.id
    case ok r  => exact .inr <| .inr ⟨r, rfl, by rw [finish_current hc hr]⟩
    case error =>
      -- There is no such record in which the result could be kept.
      refine .inr <| .inl ?_
      simp only [finish, hc, if_true, hr]
      split <;> rfl

theorem tokens_finish (s : Session σ) (d : CompletedLocate) : (s.finish d).2.tokens = s.tokens := by
  obtain h | h | ⟨r, _, h⟩ := s.finish_cases d
  all_goals rw [h]
  case inr.inr => rfl

theorem selection_release {y' : Selection} (h : (s.release token).selection = some y') :
    ∃ y, s.selection = some y ∧ y'.id = y.id ∧ y'.token = y.token ∧
      (y'.running = true ↔ y.running = true ∧ y.token ≠ token) := by
  have ⟨y, hy, he⟩ := Option.map_eq_some_iff.mp h
  refine ⟨y, hy, ?_⟩
  by_cases ht : y.token = token
  case pos => simp [← he, ht]
  case neg => simp [← he, ht]

theorem selects_release (u : CancellationToken) :
    (s.release token).Selects u ↔ s.Selects u := by
  unfold release Selects
  cases s.selection
  case none   => simp
  case some y =>
    by_cases ht : y.token = token
    case pos => simp [ht]
    case neg => simp [ht]

end Selecting

end Session

end LogOrigin
