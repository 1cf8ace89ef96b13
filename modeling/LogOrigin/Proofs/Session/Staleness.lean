import LogOrigin.Proofs.Session.Tracking

-- Only the latest search counts, and only for the log in which it began.

namespace LogOrigin

namespace SharedSession

open History

variable {σ : Type} {x : SharedSession σ} {h : History} {time : Nat} {d : CompletedLocate}

theorem Reachable.isCurrent_iff (r : Reachable h x) (hd : .completed time d ∈ x.handles) :
    x.session.isCurrent d = true ↔ latest h = some time :=
  r.tracked.isCurrent_iff (t := ⟨time, d.id, d.token, d.generation⟩)
    (List.mem_map_of_mem hd) rfl rfl

-- A search that has come to an end was begun for its record at the time of its handle. If this is
-- not the latest handle, or if a log has been loaded since, then its result changes nothing.
-- Otherwise the search is that of the selection, its result clears the selection, and at most the
-- location of its record changes.
theorem finish_discards_stale (r : Reachable h x) (hd : .completed time d ∈ x.handles) :
    (∃ p, event? h time = some (.began d.id (.ok (some p)))) ∧
    (latest h ≠ some time → x.session.finish d = (.ok none, x.session)) ∧
    (latest h = some time →
      (∃ z, x.session.selection = some z ∧ z.id = d.id ∧ z.token = d.token) ∧
      ∃ record, x.session.store.get d.id = .ok record ∧
        x.session.finish d = (d.result.map some, Session.setRecord
          { x.session with selection := none } d.id (Resolver.keep record d.result))) ∧
    (∀ i, i ≠ d.id → (x.session.finish d).2.store.get i = x.session.store.get i) := by
  have ht := List.mem_map_of_mem (f := Handle.ticket) hd
  have ⟨p, hp, _⟩ := r.tracked.begun _ ht
  have stale (hl : latest h ≠ some time) : x.session.finish d = (.ok none, x.session) :=
    Session.finish_stale <| Bool.eq_false_iff.mpr <| hl ∘ (r.isCurrent_iff hd).mp
  have current (hl : latest h = some time) : ∃ z record, x.session.selection = some z ∧
      z.id = d.id ∧ z.token = d.token ∧ x.session.store.get d.id = .ok record := by
    have ⟨z, hz, hk⟩ := (r.tracked.latest_iff _ ht).mp hl
    have ⟨hi, _, hlt⟩ := r.tracked.matching _ ht z hz hk
    have ⟨record, hr⟩ := RecordStore.get_of_lt hlt
    exact ⟨z, record, hz, hi, hk, hr⟩
  refine ⟨⟨p, hp⟩, stale, ?current, ?others⟩
  case current =>
    intro hl
    have ⟨z, record, hz, hi, hk, hr⟩ := current hl
    exact ⟨⟨z, hz, hi, hk⟩, record, hr, Session.finish_current ((r.isCurrent_iff hd).mpr hl) hr⟩
  case others =>
    intro i hi
    by_cases hl : latest h = some time
    case neg => rw [stale hl]
    case pos =>
      have ⟨_, _, _, _, _, hr⟩ := current hl
      rw [Session.finish_current ((r.isCurrent_iff hd).mpr hl) hr]
      exact RecordStore.get_set_ne _ hi

-- Searches for two records, one begun after the other. The first result comes too late.
theorem finish_discards_stale_superseded :
    let s := ((Session.offline ⟨['.']⟩ Settings.default).load ['a', '\n', 'b']).2
    let s₀ := (s.beginLocate 0).2
    let s₁ := (s₀.beginLocate 1).2
    let fs : Files := ⟨.dir [], []⟩
    ∃ p q, (s.beginLocate 0).1 = .ok (some p) ∧ (s₀.beginLocate 1).1 = .ok (some q) ∧
      let (d, t) := s₁.run fs p
      let (e, u) := t.run fs q
      u.finish d = (.ok none, u) ∧ (u.finish e).1 = e.result.map some := by
  intro s s₀ s₁ fs
  obtain ⟨p, hp⟩ : ∃ p, (s.beginLocate 0).1 = .ok (some p) := ⟨_, rfl⟩
  obtain ⟨q, hq⟩ : ∃ q, (s₀.beginLocate 1).1 = .ok (some q) := ⟨_, rfl⟩
  refine ⟨p, q, hp, hq, ?_⟩
  have r : Reachable [.loaded (.ok 2)] ⟨s, []⟩ :=
    (Reachable.new ⟨['.']⟩ Settings.default ⟨.lexical, .text⟩ ()).step <| .load ['a', '\n', 'b']
  have r : Reachable [.began 0 (.ok (some p)), .loaded (.ok 2)] ⟨s₀, [.pending 1 p]⟩ := by
    have r := r.step <| .begin 0
    rwa [hp] at r
  have r : Reachable [.began 1 (.ok (some q)), .began 0 (.ok (some p)), .loaded (.ok 2)]
      ⟨s₁, [.pending 2 q, .pending 1 p]⟩ := by
    have r := r.step <| .begin 1
    rwa [hq] at r
  have r := r.step <| .run (l := [_]) (m := []) fs rfl
  have r := r.step <| .run (l := []) (m := [_]) fs rfl
  have ⟨_, stale, _⟩ := finish_discards_stale r (List.mem_cons_of_mem _ <| List.mem_cons_self ..)
  have ⟨_, _, current, _⟩ := finish_discards_stale r (List.mem_cons_self ..)
  have ⟨_, _, _, he⟩ := current rfl
  exact ⟨stale (by simp [latest]), congrArg Prod.fst he⟩

end SharedSession

end LogOrigin
