import LogOrigin.Proofs.Session.Tracking

-- Of all handles that are about at most one is not cancelled, and only that one keeps its record
-- from being searched for once more.

namespace LogOrigin

variable {σ : Type} {s s' : Session σ} {a b : Handle} {id : Nat}

-- A handle whose token has not been cancelled.
def Handle.isLive (s : Session σ) (a : Handle) : Bool :=
  !s.tokens.isCancelled a.ticket.token

theorem Handle.isLive_iff :
    a.isLive s = true ↔ s.tokens.isCancelled a.ticket.token = false := by
  simp [isLive]

namespace Session

-- The ways to give up the search of a handle, with what becomes of the session.
inductive GivesUp (s : Session σ) : Handle → Session σ → Prop where
  | drop (a : Handle) : GivesUp s a (s.release a.ticket.token)
  | cancel (a : Handle) : GivesUp s a (s.cancel a.ticket.token)
  | finish (time : Nat) (d : CompletedLocate) : GivesUp s (.completed time d) (s.finish d).2

theorem beginLocate_ok {record : Record} (h : s.store.get id = .ok record) :
    ∃ answer, (s.beginLocate id).1 = .ok answer := by
  cases hf : s.inFlight id
  case true  => exact ⟨_, congrArg Prod.fst <| beginLocate_inFlight h hf⟩
  case false => exact ⟨_, congrArg Prod.fst <| beginLocate_free h hf⟩

theorem beginLocate_none_iff {record : Record} (h : s.store.get id = .ok record) :
    (s.beginLocate id).1 = .ok none ↔ s.inFlight id = true := by
  cases hf : s.inFlight id
  case true  => simp [beginLocate_inFlight h hf]
  case false => simp [beginLocate_free h hf]

theorem inFlight_of_none (h : (s.beginLocate id).1 = .ok none) : s.inFlight id = true := by
  cases hr : s.store.get id
  case ok    => exact (beginLocate_none_iff hr).mp h
  case error =>
    rw [beginLocate_unknown hr] at h
    cases h

theorem tokens_beginLocate {p : PendingLocate} (h : (s.beginLocate id).1 = .ok (some p)) :
    (s.beginLocate id).2.tokens = s.cancelSelection.tokens.issue.2 := by
  have ⟨_, _, _, hb⟩ := beginLocate_some h
  rw [hb]

end Session

namespace SharedSession

variable {x y : SharedSession σ} {h : History}

namespace Reachable

theorem token_ne {l m : List Handle} (r : Reachable h x) (hx : x.handles = l ++ a :: m) :
    ∀ b ∈ l ++ m, b.ticket.token ≠ a.ticket.token := by
  intro b hb
  exact (r.tracked.front hx).token_ne <| List.mem_map_of_mem hb

theorem selected (r : Reachable h x) (ha : a ∈ x.handles) (hl : a.isLive x.session = true) :
    ∃ z, x.session.selection = some z ∧ z.id = a.ticket.id ∧ z.token = a.ticket.token := by
  have ha := List.mem_map_of_mem (f := Handle.ticket) ha
  have ⟨z, hz, hk⟩ := r.tracked.live _ ha <| Handle.isLive_iff.mp hl
  have ⟨hi, _⟩ := r.tracked.matching _ ha z hz hk
  exact ⟨z, hz, hi, hk⟩

theorem inFlight_iff (r : Reachable h x) : x.session.inFlight id = true ↔
    ∃ a ∈ x.handles, a.ticket.id = id ∧ a.isLive x.session = true := by
  rw [Session.inFlight_iff]
  constructor
  case mp =>
    rintro ⟨z, hz, hi, hc, hr⟩
    have ⟨t, ht, hk⟩ := List.mem_map.mp <| (r.tracked.running z hz).mp hr
    have ⟨a, ha, he⟩ := List.mem_map.mp ht
    have ⟨hi', _⟩ := r.tracked.matching t ht z hz hk.symm
    rw [← hk, ← he] at hc
    exact ⟨a, ha, he ▸ hi' ▸ hi, Handle.isLive_iff.mpr hc⟩
  case mpr =>
    rintro ⟨a, ha, hi, hl⟩
    have ⟨z, hz, hi', hk⟩ := r.selected ha hl
    refine ⟨z, hz, hi'.trans hi, hk ▸ Handle.isLive_iff.mp hl, (r.tracked.running z hz).mpr ?_⟩
    exact hk ▸ List.mem_map_of_mem (List.mem_map_of_mem ha)

theorem length_live_le (r : Reachable h x) :
    (x.handles.filter (·.isLive x.session)).length ≤ 1 := by
  have live a (ha : a ∈ x.handles.filter (·.isLive x.session)) :=
    r.selected (List.mem_filter.mp ha).1 (List.mem_filter.mp ha).2
  have nodup := r.tracked.nodup
  rw [List.map_map] at nodup
  have nodup := nodup.sublist <| (List.filter_sublist (p := (·.isLive x.session))).map _
  generalize x.handles.filter (·.isLive x.session) = l at live nodup ⊢
  rcases l with _ | ⟨a, _ | ⟨b, l⟩⟩
  case nil       => exact Nat.zero_le 1
  case cons.nil  => exact Nat.le_refl 1
  case cons.cons =>
    -- Both are selected, so their tokens are the same.
    have ⟨z, hz, _, hk⟩ := live a (by simp)
    have ⟨z', hz', _, hk'⟩ := live b (by simp)
    rw [hz] at hz'
    cases hz'
    simp [← hk, ← hk'] at nodup

-- After a handle has been given up, its record is kept back only by another one.
theorem blocked (r : Reachable h x) (ha : a ∈ x.handles) (g : x.session.GivesUp a s)
    (hn : (s.beginLocate id).1 = .ok none) :
    ∃ b ∈ x.handles, b.ticket.token ≠ a.ticket.token ∧ b.ticket.id = id ∧
      b.isLive x.session = true := by
  have hf := Session.inFlight_of_none hn
  have ⟨l, m, hx⟩ := List.append_of_mem ha
  have mem b (hb : b ∈ l ++ m) : b ∈ x.handles := by
    rw [hx]
    exact List.mem_append.mpr <| (List.mem_append.mp hb).imp_right <| List.mem_cons_of_mem _
  cases g
  case drop =>
    have ⟨b, hb, hi, hl⟩ := (r.step <| .drop hx).inFlight_iff.mp hf
    exact ⟨b, mem b hb, r.token_ne hx b hb, hi, hl⟩
  case finish time d =>
    have ⟨b, hb, hi, hl⟩ := (r.step <| .finish hx).inFlight_iff.mp hf
    rw [Handle.isLive, Session.tokens_finish] at hl
    exact ⟨b, mem b hb, r.token_ne hx b hb, hi, hl⟩
  case cancel =>
    have issued := r.tracked.issued _ <| List.mem_map_of_mem ha
    have ⟨b, hb, hi, hl⟩ := (r.step <| .cancel issued).inFlight_iff.mp hf
    rw [Handle.isLive_iff, Session.cancel, Cancellations.isCancelled_cancel] at hl
    rw [Bool.or_eq_false_iff, decide_eq_false_iff_not] at hl
    exact ⟨b, hb, hl.1, hi, Handle.isLive_iff.mpr hl.2⟩

end Reachable

-- At most one handle is not cancelled, and it is that of the selection. A search for a record is
-- refused iff this handle is for the same record; otherwise it begins, and all handles from before
-- are cancelled. Whoever gives up a handle does not keep anybody from another search.
theorem resolution_single_flight (r : Reachable h x) :
    (x.handles.filter (·.isLive x.session)).length ≤ 1 ∧
    (∀ a ∈ x.handles, a.isLive x.session = true →
      ∃ z, x.session.selection = some z ∧ z.id = a.ticket.id ∧ z.token = a.ticket.token) ∧
    (∀ id record, x.session.store.get id = .ok record →
      (∃ answer, (x.session.beginLocate id).1 = .ok answer) ∧
      ((x.session.beginLocate id).1 = .ok none ↔
        ∃ a ∈ x.handles, a.ticket.id = id ∧ a.isLive x.session = true)) ∧
    (∀ id p, (x.session.beginLocate id).1 = .ok (some p) →
      ∀ a ∈ x.handles, a.isLive (x.session.beginLocate id).2 = false) ∧
    (∀ a ∈ x.handles, ∀ s, x.session.GivesUp a s → ∀ id, (s.beginLocate id).1 = .ok none →
      ∃ b ∈ x.handles, b.ticket.token ≠ a.ticket.token ∧ b.ticket.id = id ∧
        b.isLive x.session = true) := by
  refine ⟨r.length_live_le, fun a ha hl => r.selected ha hl, ?begin, ?superseded, ?givenUp⟩
  case begin =>
    intro id record hr
    exact ⟨Session.beginLocate_ok hr, (Session.beginLocate_none_iff hr).trans r.inFlight_iff⟩
  case superseded =>
    intro id p hp a ha
    rw [Handle.isLive, Session.tokens_beginLocate hp, Cancellations.isCancelled_issue,
      r.tracked.called_off <| List.mem_map_of_mem ha, Bool.not_true]
  case givenUp =>
    intro a ha s g id hn
    exact r.blocked ha g hn

-- A record that is searched for once more as soon as its handle has been dropped.
theorem resolution_single_flight_dropped :
    let s := ((Session.offline ⟨['.']⟩ Settings.default).load ['a', '\n', 'b']).2
    let s₀ := (s.beginLocate 0).2
    ∃ p q, (s.beginLocate 0).1 = .ok (some p) ∧ (s₀.beginLocate 0).1 = .ok none ∧
      ((s₀.release p.token).beginLocate 0).1 = .ok (some q) := by
  intro s s₀
  obtain ⟨p, hp, hi, hl⟩ : ∃ p, (s.beginLocate 0).1 = .ok (some p) ∧ p.id = 0 ∧
      Handle.isLive s₀ (.pending 1 p) = true := ⟨_, rfl, rfl, rfl⟩
  have r : Reachable [.loaded (.ok 2)] ⟨s, []⟩ :=
    (Reachable.new ⟨['.']⟩ Settings.default ⟨.lexical, .text⟩ ()).step <| .load ['a', '\n', 'b']
  have r : Reachable [.began 0 (.ok (some p)), .loaded (.ok 2)] ⟨s₀, [.pending 1 p]⟩ := by
    have r := r.step <| .begin 0
    rwa [hp] at r
  have ⟨_, _, begins, _, givenUp⟩ := resolution_single_flight r
  have ⟨record, hr⟩ : ∃ record, s₀.store.get 0 = .ok record := ⟨_, rfl⟩
  have ⟨_, hn⟩ := begins 0 record hr
  have ⟨answer, ha⟩ := Session.beginLocate_ok (s := s₀.release p.token) hr
  cases answer
  case some q => exact ⟨p, q, hp, hn.mpr ⟨_, List.mem_singleton_self _, hi, hl⟩, ha⟩
  case none   =>
    have ⟨b, hb, hne, _⟩ := givenUp _ (List.mem_singleton_self _) _ (.drop _) 0 ha
    exact absurd (congrArg (·.ticket.token) <| List.mem_singleton.mp hb) hne

end SharedSession

end LogOrigin
