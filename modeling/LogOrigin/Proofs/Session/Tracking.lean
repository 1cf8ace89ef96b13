import LogOrigin.Proofs.Session.Handles

-- How the handles that are about hang together with the selection of the session.

namespace LogOrigin.SharedSession

variable {σ : Type} {s s' : Session σ} {x y : SharedSession σ} {h : History} {e : Event}
variable {tickets : List Ticket} {t u : Ticket} {handles l m : List Handle} {b : Handle} {id : Nat}

open History

-- Every ticket is known from its beginning, no two have the same token, and the one that was given
-- out last is that of the selection, unless a log has been loaded since. All others are cancelled.
structure Tracked (s : Session σ) (tickets : List Ticket) (h : History) : Prop where
  begun      : ∀ t ∈ tickets, ∃ p, event? h t.time = some (.began t.id (.ok (some p))) ∧
    p.token = t.token
  nodup      : (tickets.map (·.token)).Nodup
  issued     : ∀ t ∈ tickets, t.token.number < s.tokens.issued
  selected   : ∀ z, s.selection = some z → z.token.number < s.tokens.issued
  latest_iff : ∀ t ∈ tickets, latest h = some t.time ↔ s.Selects t.token
  matching   : ∀ t ∈ tickets, ∀ z, s.selection = some z → z.token = t.token →
    z.id = t.id ∧ t.generation = s.generation ∧ t.id < s.store.size
  running    : ∀ z, s.selection = some z → (z.running = true ↔ z.token ∈ tickets.map (·.token))
  live       : ∀ t ∈ tickets, s.tokens.isCancelled t.token = false → s.Selects t.token

namespace Tracked

theorem new (root : FilePath) (settings : Settings) (advisers : Advisers σ) (memory : σ) :
    Tracked (.new root settings advisers memory) [] [] := by
  constructor <;> simp [Session.new]

theorem begun_cons (a : Tracked s tickets h) (e : Event) (ht : t ∈ tickets) :
    ∃ p, event? (e :: h) t.time = some (.began t.id (.ok (some p))) ∧ p.token = t.token := by
  have ⟨p, hp, hk⟩ := a.begun t ht
  exact ⟨p, event?_cons e hp, hk⟩

-- Tickets from the same time are the same.
theorem time_ne (a : Tracked s tickets h) (ht : t ∈ tickets) (hu : u ∈ tickets)
    (hk : t.token ≠ u.token) : t.time ≠ u.time := by
  intro he
  have ⟨p, hp, hpt⟩ := a.begun t ht
  have ⟨q, hq, hqu⟩ := a.begun u hu
  rw [← he, hp] at hq
  simp only [Option.some.injEq, Event.began.injEq, Except.ok.injEq] at hq
  exact hk <| hpt.symm.trans <| hq.2 ▸ hqu

theorem called_off (a : Tracked s tickets h) (ht : t ∈ tickets) :
    s.cancelSelection.tokens.isCancelled t.token = true := by
  rw [Session.isCancelled_cancelSelection]
  cases hc : s.tokens.isCancelled t.token
  case true  => exact .inr rfl
  case false => exact .inl <| a.live t ht hc

-- A step that is not about the selection.
theorem continued (a : Tracked s tickets h) (hs : Session.Continues s s')
    (he : latest (e :: h) = latest h) : Tracked s' tickets (e :: h) where
  begun _ ht := a.begun_cons e ht
  nodup      := a.nodup
  issued     := by simpa [hs.tokens] using a.issued
  selected   := by simpa [hs.tokens, hs.selection] using a.selected
  latest_iff := by simpa [he, Session.Selects, hs.selection] using a.latest_iff
  matching   := by simpa [hs.generation, hs.selection, hs.size] using a.matching
  running    := by simpa [hs.selection] using a.running
  live       := by simpa [hs.tokens, Session.Selects, hs.selection] using a.live

theorem cancel (a : Tracked s tickets h) (token : CancellationToken) :
    Tracked (s.cancel token) tickets (.cancelled token :: h) where
  begun _ ht := a.begun_cons _ ht
  nodup      := a.nodup
  issued     := a.issued
  selected   := a.selected
  latest_iff := a.latest_iff
  matching   := a.matching
  running    := a.running
  live t ht hc := by
    simp only [Session.cancel, Cancellations.isCancelled_cancel, Bool.or_eq_false_iff] at hc
    exact a.live t ht hc.2

theorem load (a : Tracked s tickets h) (text : Text) :
    Tracked (s.load text).2 tickets (.loaded (s.load text).1 :: h) := by
  rcases s.load_cases text with ⟨e, he⟩ | ⟨n, store, he⟩
  case inl =>
    rw [he]
    exact a.continued (.refl s) rfl
  case inr =>
    rw [he]
    constructor
    case begun      => exact fun _ ht => a.begun_cons _ ht
    case nodup      => exact a.nodup
    case issued     => simpa [Session.issued_cancelSelection] using a.issued
    case selected   => simp
    case latest_iff => simp [latest, Session.Selects]
    case matching   => simp
    case running    => simp
    case live       => simp +contextual [a.called_off]

theorem loadFile (a : Tracked s tickets h) (fs : Files) (file : FilePath) :
    Tracked (s.loadFile fs file).2 tickets (.loaded (s.loadFile fs file).1 :: h) := by
  unfold Session.loadFile
  split
  case h_1 => exact a.load _
  case h_2 => exact a.continued (.refl s) rfl

-- The ticket of a search that begins is the only one that is not cancelled.
theorem begin_free (a : Tracked s tickets h) {r : Record} (hr : s.store.get id = .ok r)
    (hf : s.inFlight id = false) :
    Tracked (s.beginLocate id).2 (⟨h.length, id, ⟨s.tokens.issued⟩, s.generation⟩ :: tickets)
      (.began id (s.beginLocate id).1 :: h) := by
  rw [Session.beginLocate_free hr hf]
  have old t (ht : t ∈ tickets) : t.token ≠ ⟨s.tokens.issued⟩ :=
    fun hk => Nat.lt_irrefl _ (hk ▸ a.issued t ht)
  have hi : s.cancelSelection.tokens.issue.2.issued = s.tokens.issued + 1 :=
    congrArg (· + 1) s.issued_cancelSelection
  constructor
  case begun =>
    apply List.forall_mem_cons.mpr ⟨⟨_, event?_self .., rfl⟩, fun t ht => a.begun_cons _ ht⟩
  case nodup =>
    refine List.nodup_cons.mpr ⟨?_, a.nodup⟩
    intro hm
    have ⟨t, ht, hk⟩ := List.mem_map.mp hm
    exact old t ht hk
  case issued =>
    rw [hi]
    refine List.forall_mem_cons.mpr ⟨Nat.lt_succ_self _, fun t ht => ?_⟩
    exact Nat.lt_succ_of_lt <| a.issued t ht
  case selected =>
    rintro z ⟨⟩
    exact hi ▸ Nat.lt_succ_self _
  case latest_iff =>
    refine List.forall_mem_cons.mpr ⟨by simp [latest, Session.Selects], fun t ht => ?_⟩
    obtain ⟨_, he, _⟩ := a.begun t ht
    simp [latest, Session.Selects, Nat.ne_of_gt (lt_of_event? he), (old t ht).symm]
  case matching =>
    refine List.forall_mem_cons.mpr ⟨?_, fun t ht => ?_⟩
    · rintro z ⟨⟩ _
      exact ⟨rfl, rfl, RecordStore.lt_of_get hr⟩
    · rintro z ⟨⟩ hk
      exact absurd hk.symm <| old t ht
  case running =>
    rintro z ⟨⟩
    simp
  case live =>
    refine List.forall_mem_cons.mpr ⟨fun _ => ⟨_, rfl, rfl⟩, fun t ht hc => ?_⟩
    rw [Cancellations.isCancelled_issue, a.called_off ht] at hc
    cases hc

theorem begin (a : Tracked s tickets h) (id : Nat) :
    Tracked (s.beginLocate id).2
      ((given h.length (s.beginLocate id).1).map Handle.ticket ++ tickets)
      (.began id (s.beginLocate id).1 :: h) := by
  cases hr : s.store.get id
  case error =>
    rw [Session.beginLocate_unknown hr]
    exact a.continued (.refl s) rfl
  case ok r =>
    cases hf : s.inFlight id
    case true =>
      rw [Session.beginLocate_inFlight hr hf]
      exact a.continued (.refl s) rfl
    case false =>
      have ha := a.begin_free hr hf
      rw [Session.beginLocate_free hr hf] at ha ⊢
      exact ha

theorem perm (a : Tracked s tickets h) {tickets' : List Ticket} (p : tickets.Perm tickets') :
    Tracked s tickets' h where
  begun      := by simpa [p.mem_iff] using a.begun
  nodup      := (p.map _).nodup_iff.mp a.nodup
  issued     := by simpa [p.mem_iff] using a.issued
  selected   := a.selected
  latest_iff := by simpa [p.mem_iff] using a.latest_iff
  matching   := by simpa [p.mem_iff] using a.matching
  running    := by simpa [(p.map (·.token)).mem_iff] using a.running
  live       := by simpa [p.mem_iff] using a.live

theorem front (a : Tracked s (handles.map Handle.ticket) h) (hx : handles = l ++ b :: m) :
    Tracked s (b.ticket :: (l ++ m).map Handle.ticket) h := by
  rw [hx] at a
  exact a.perm <| List.perm_middle.map Handle.ticket

theorem token_notMem (a : Tracked s (t :: tickets) h) : t.token ∉ tickets.map (·.token) :=
  (List.nodup_cons.mp a.nodup).1

theorem token_ne (a : Tracked s (t :: tickets) h) (hu : u ∈ tickets) : u.token ≠ t.token :=
  ne_of_mem_of_not_mem (List.mem_map_of_mem hu) a.token_notMem

theorem drop (a : Tracked s (t :: tickets) h) :
    Tracked (s.release t.token) tickets (.dropped t :: h) where
  begun _ hu := a.begun_cons _ <| List.mem_cons_of_mem _ hu
  nodup      := (List.nodup_cons.mp a.nodup).2
  issued     := (List.forall_mem_cons.mp a.issued).2
  selected z hz := by
    have ⟨y, hy, _, hk, _⟩ := Session.selection_release hz
    exact hk ▸ a.selected y hy
  latest_iff u hu := by
    rw [Session.selects_release]
    exact a.latest_iff u <| List.mem_cons_of_mem _ hu
  matching u hu z hz hk := by
    have ⟨y, hy, hi, ht, _⟩ := Session.selection_release hz
    exact hi ▸ a.matching u (List.mem_cons_of_mem _ hu) y hy (ht ▸ hk)
  running z hz := by
    have ⟨y, hy, _, hk, hr⟩ := Session.selection_release hz
    rw [hr, hk, a.running y hy, List.map_cons, List.mem_cons]
    refine ⟨fun hm => hm.1.resolve_left hm.2, fun hm => ⟨.inr hm, ?_⟩⟩
    exact ne_of_mem_of_not_mem hm a.token_notMem
  live u hu hc := by
    rw [Session.selects_release]
    exact a.live u (List.mem_cons_of_mem _ hu) hc

theorem stale (a : Tracked s (t :: tickets) h) (hn : ¬s.Selects t.token) : Tracked s tickets h where
  begun      := (List.forall_mem_cons.mp a.begun).2
  nodup      := (List.nodup_cons.mp a.nodup).2
  issued     := (List.forall_mem_cons.mp a.issued).2
  selected   := a.selected
  latest_iff := (List.forall_mem_cons.mp a.latest_iff).2
  matching   := (List.forall_mem_cons.mp a.matching).2
  running z hz := by
    have hne : z.token ≠ t.token := fun hk => hn ⟨z, hz, hk⟩
    rw [a.running z hz, List.map_cons, List.mem_cons, or_iff_right hne]
  live       := (List.forall_mem_cons.mp a.live).2

theorem isCurrent_iff (a : Tracked s tickets h) {d : CompletedLocate} (ht : t ∈ tickets)
    (hk : d.token = t.token) (hg : d.generation = t.generation) :
    s.isCurrent d = true ↔ latest h = some t.time := by
  rw [Session.isCurrent_iff, a.latest_iff t ht, hk, hg, and_iff_right_iff_imp]
  rintro ⟨z, hz, he⟩
  exact (a.matching t ht z hz he).2.1

theorem finish (a : Tracked s (t :: tickets) h) {d : CompletedLocate} (hi : d.id = t.id)
    (hk : d.token = t.token) (hg : d.generation = t.generation) :
    Tracked (s.finish d).2 tickets (.finished t (s.finish d).1 :: h) := by
  have ht := List.mem_cons_self (a := t) (l := tickets)
  have hc := a.isCurrent_iff ht hk hg
  cases hd : s.isCurrent d
  case false =>
    rw [Session.finish_stale hd]
    rw [hd, a.latest_iff t ht] at hc
    exact (a.stale (by simpa using hc)).continued (.refl s) rfl
  case true =>
    rw [hd] at hc
    have hl := hc.mp rfl
    have ⟨z, hz, he⟩ := (a.latest_iff t ht).mp hl
    have ⟨_, _, hlt⟩ := a.matching t ht z hz he
    have ⟨r, hr⟩ := RecordStore.get_of_lt hlt
    rw [Session.finish_current hd (hi ▸ hr)]
    constructor
    case begun      => exact fun _ hu => a.begun_cons _ <| List.mem_cons_of_mem _ hu
    case nodup      => exact (List.nodup_cons.mp a.nodup).2
    case issued     => exact (List.forall_mem_cons.mp a.issued).2
    case selected   => simp [Session.setRecord]
    case latest_iff =>
      intro u hu
      have hn := a.time_ne ht (List.mem_cons_of_mem _ hu) (a.token_ne hu).symm
      simp [latest, hl, hn, Session.Selects, Session.setRecord]
    case matching   => simp [Session.setRecord]
    case running    => simp [Session.setRecord]
    case live       =>
      intro u hu hc
      have ⟨y, hy, hy'⟩ := a.live u (List.mem_cons_of_mem _ hu) hc
      rw [hz] at hy
      cases hy
      exact absurd (hy'.symm.trans he) <| a.token_ne hu

theorem step (a : Tracked x.session (x.handles.map Handle.ticket) h) (st : Step x h.length e y) :
    Tracked y.session (y.handles.map Handle.ticket) (e :: h) := by
  cases st
  case load text        => exact a.load text
  case loadFile fs file => exact a.loadFile fs file
  case begin id         =>
    rw [List.map_append]
    exact a.begin id
  case run l m n p fs hx =>
    -- The ticket stays the same.
    have ht : (l ++ .completed n (x.session.run fs p).1 :: m).map Handle.ticket =
        x.handles.map Handle.ticket := by
      simp [hx, Handle.ticket, Session.run]
    rw [ht]
    exact a.continued (Session.continues_run ..) rfl
  case finish hx        => exact (a.front hx).finish rfl rfl rfl
  case drop hx          => exact (a.front hx).drop
  case cancel token _   => exact a.cancel token
  case analyze id       => exact a.continued (Session.continues_analyze ..) rfl
  case locate fs id     => exact a.continued (Session.continues_locate ..) rfl
  case callers fs id    => exact a.continued (Session.continues_callers ..) rfl
  case expand fs id way => exact a.continued (Session.continues_expand ..) rfl

end Tracked

theorem Reachable.tracked (r : Reachable h x) :
    Tracked x.session (x.handles.map Handle.ticket) h := by
  induction r
  case new          => exact .new ..
  case step _ st hi => exact hi.step st

end LogOrigin.SharedSession
