import LogOrigin.Proofs.Session.Setup

-- The origin of a record can be searched for by a handle or at once. If nothing happens in between,
-- both ways come to the same end, whatever the selection was before.

namespace LogOrigin

-- All that a record can keep of a search is a location.
theorem Resolver.exists_keep (r : Record) (result : Except Failure Resolution) :
    ∃ l, keep r result = { r with location := l } := by
  unfold keep
  split
  case h_1 o => exact ⟨some o.location, rfl⟩
  case h_2   => exact ⟨r.location, rfl⟩

namespace Session

variable {σ : Type} {s t : Session σ} {id : Nat} {r : Record} {p : PendingLocate}

-- A token that has not been issued yet is not cancelled.
theorem Bounded.isCancelled_issued (h : s.Bounded) :
    s.tokens.isCancelled ⟨s.tokens.issued⟩ = false := by
  rw [Bool.eq_false_iff]
  intro hc
  exact Nat.lt_irrefl _ <| h _ <| List.contains_iff_mem.mp hc

-- A state of a session that differs from another one in the location of a record at most, as far as
-- the log and the callers are concerned.
structure OnlyLocates (s t : Session σ) (id : Nat) : Prop where
  located    : ∀ r, s.store.get id = .ok r → ∃ l, t.store.get id = .ok { r with location := l }
  others     : ∀ i, i ≠ id → t.store.get i = s.store.get i
  size       : t.store.size = s.store.size
  cache      : t.surroundings.cache = s.surroundings.cache
  memory     : t.surroundings.memory = s.surroundings.memory
  generation : t.generation = s.generation

theorem onlyLocates_keep {result : Except Failure Resolution} (hr : s.store.get id = .ok r)
    (hs : t.store = s.store.set id (Resolver.keep r result))
    (hc : t.surroundings.cache = s.surroundings.cache)
    (hm : t.surroundings.memory = s.surroundings.memory)
    (hg : t.generation = s.generation) : OnlyLocates s t id where
  located r' hr' := by
    cases hr.symm.trans hr'
    obtain ⟨l, hl⟩ := Resolver.exists_keep r result
    refine ⟨l, ?_⟩
    rw [hs, hl]
    exact RecordStore.get_eq_ok.mpr <| List.getElem?_set_self <| RecordStore.lt_of_get hr
  others i hi := hs ▸ RecordStore.get_set_ne _ hi
  size        := hs ▸ List.length_set ..
  cache       := hc
  memory      := hm
  generation  := hg

theorem locate_eq (fs : Files) (hr : s.store.get id = .ok r) :
    let x := s.resolver.resolve fs r false
    s.locate fs id = (x.1, (s.setRecord id (Resolver.keep r x.1)).withResolver x.2) := by
  intro x
  rw [locate, hr]
  rfl

-- A handle whose search is that of the selection, and which is not called off.
theorem finish_run (fs : Files) (hg : p.generation = s.generation) (hp : s.Selects p.token)
    (hc : s.tokens.isCancelled p.token = false) (hr : s.store.get p.id = .ok p.record) :
    let x := s.resolver.resolve fs p.record false
    (s.run fs p).2.finish (s.run fs p).1 = (x.1.map some,
      setRecord { s.withResolver x.2 with selection := none } p.id
        (Resolver.keep p.record x.1)) := by
  intro x
  have he : s.run fs p = (⟨p.id, p.token, p.generation, x.1⟩, s.withResolver x.2) := by
    rw [run, hc]
  rw [he]
  exact finish_current (isCurrent_iff.mpr ⟨hg, hp⟩) hr

end Session

namespace SharedSession

variable {σ : Type} {x : SharedSession σ} {h : History} {id : Nat} {p : PendingLocate}

-- A handle that is run and finished at once finds what a search without a handle finds, which is an
-- origin, none, or no repository. Both leave the same locations behind and remember the same about
-- the repository, with the same number of scans. Nothing else of the log and of its callers
-- changes.
theorem finish_run_as_locate (r : Reachable h x) (fs : Files)
    (hp : (x.session.beginLocate id).1 = .ok (some p)) :
    let ran := (x.session.beginLocate id).2.run fs p
    let split := ran.2.finish ran.1
    let inline := x.session.locate fs id
    split.1 = inline.1.map some ∧
    ((∃ o, inline.1 = .ok (.found o)) ∨ inline.1 = .ok .notFound ∨
      inline.1 = .error (.file (.missingRoot x.session.resolver.root))) ∧
    split.2.store = inline.2.store ∧
    split.2.resolver = inline.2.resolver ∧
    Session.OnlyLocates x.session split.2 id ∧
    Session.OnlyLocates x.session inline.2 id := by
  obtain ⟨record, hr, rfl, hb⟩ := Session.beginLocate_some hp
  have hc := (r.bounded.cancelSelection r.tracked.selected).isCancelled_issued
  rw [Session.issued_cancelSelection] at hc
  rw [hb, Session.locate_eq fs hr]
  intro ran split inline
  have hs : split = _ := Session.finish_run fs rfl ⟨_, rfl, rfl⟩ hc hr
  rw [hs]
  refine ⟨rfl, Resolver.resolve_live .., rfl, rfl, ?split, ?inline⟩
  case split  => exact Session.onlyLocates_keep hr rfl rfl rfl rfl
  case inline => exact Session.onlyLocates_keep hr rfl rfl rfl rfl

-- A record whose message names its origin, while another record is being searched for.
theorem finish_run_as_locate_found :
    let s := ((Session.offline ⟨['.']⟩ Settings.default).load "b\nat a.rs:3".toList).2
    let s₀ := (s.beginLocate 0).2
    let fs : Files := ⟨.dir [("a.rs".toList, .file .empty)], []⟩
    ∃ p, (s₀.beginLocate 1).1 = .ok (some p) ∧
      let ran := (s₀.beginLocate 1).2.run fs p
      let done := ran.2.finish ran.1
      done.1 = .ok (some (.found (.ofLocation .hint ⟨⟨"./a.rs".toList⟩, 2⟩))) ∧
      done.2.store = (s₀.locate fs 1).2.store := by
  intro s s₀ fs
  obtain ⟨q, hq⟩ : ∃ q, (s.beginLocate 0).1 = .ok (some q) := ⟨_, rfl⟩
  obtain ⟨p, hp⟩ : ∃ p, (s₀.beginLocate 1).1 = .ok (some p) := ⟨_, rfl⟩
  have r : Reachable [.loaded (.ok 2)] ⟨s, []⟩ :=
    (Reachable.new ⟨['.']⟩ Settings.default ⟨.lexical, .text⟩ ()).step <|
      .load "b\nat a.rs:3".toList
  have r : Reachable [.began 0 (.ok (some q)), .loaded (.ok 2)] ⟨s₀, [.pending 1 q]⟩ := by
    have r := r.step <| .begin 0
    rwa [hq] at r
  have ⟨answer, _, store, _⟩ := finish_run_as_locate r fs hp
  have found : (s₀.locate fs 1).1 = .ok (.found (.ofLocation .hint ⟨⟨"./a.rs".toList⟩, 2⟩)) := rfl
  rw [found] at answer
  exact ⟨p, hp, answer, store⟩

end SharedSession

end LogOrigin
