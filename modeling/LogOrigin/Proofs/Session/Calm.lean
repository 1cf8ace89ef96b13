import LogOrigin.Proofs.Callers.Replacement
import LogOrigin.Proofs.Session.Retention

-- Between its operations a session is calm: the callers of no place are being loaded, and no node
-- of a tree is waiting for its children.

namespace LogOrigin

theorem Parser.callers_of_parseLine {p : Parser} {line : Text} {r : Record}
    (h : p.parseLine line = some r) : r.callers = none := by
  unfold parseLine at h
  dsimp only at h
  split at h
  case isTrue  => cases h
  case isFalse =>
    split at h
    all_goals cases h; rfl

theorem RecordStore.callers_of_load {s t : RecordStore} {p : Parser} {text : Text} {n : Nat}
    (h : s.load p text = (.ok n, t)) : ∀ r ∈ t.records, r.callers = none := by
  unfold load at h
  split at h
  case h_2      => cases h
  case h_1 l hl =>
    cases h
    unfold Parser.parseBatch at hl
    split at hl
    case h_1     => cases hl
    case h_2 he =>
      cases hl
      intro r hr
      obtain ⟨line, _, hp⟩ := List.mem_filterMap.mp (he ▸ hr)
      exact Parser.callers_of_parseLine hp

namespace Session

variable {σ : Type} {s t : Session σ} {id : Nat} {r r' : Record} {tree n : CallerNode}

theorem tree?_load_ok {text : Text} {k : Nat} (h : (s.load text).1 = .ok k) (id : Nat) :
    (s.load text).2.tree? id = none := by
  unfold load at h ⊢
  split
  case h_1 hl          => simp [hl] at h
  case h_2 _ store hl =>
    refine Option.bind_eq_none_iff.mpr fun r hr => ?_
    exact RecordStore.callers_of_load hl r <| List.mem_of_getElem? hr

theorem tree?_setRecord_self (hr : s.store.get id = .ok r) (new : Record) :
    (s.setRecord id new).tree? id = new.callers :=
  tree?_of_get <| get_setRecord hr new

section Expansion

variable (fs : Files) (way : List Nat)

theorem expand_treeless (h : s.tree? id = none) :
    ∃ e, s.expand fs id way = (.error e, s) := by
  cases hr : s.store.get id
  case error e => exact ⟨e, by simp [expand, context, hr]⟩
  case ok r    =>
    rw [tree?_of_get hr] at h
    exact ⟨.unresolved id, by simp [expand, context, hr, h]⟩

theorem expand_nowhere {way : List Nat} (ht : s.tree? id = some tree)
    (hd : tree.descendant? way = none) : s.expand fs id way = (.ok none, s) := by
  obtain ⟨r, hr⟩ := exists_of_tree? ht
  rw [tree?_of_get hr] at ht
  simp [expand, context, hr, ht, hd]

theorem expand_somewhere {way : List Nat} (ht : s.tree? id = some tree)
    (hd : tree.descendant? way = some n) : ∃ r ctx, s.store.get id = .ok r ∧
      s.context id = .ok ctx ∧ s.expand fs id way =
        let x := s.expandNode fs ctx n
        (.ok (some x.1),
          x.2.setRecord id { r with callers := some (tree.replaceAt way x.1) }) := by
  obtain ⟨r, hr⟩ := exists_of_tree? ht
  obtain ⟨ctx, hc⟩ : ∃ ctx, s.context id = .ok ctx := by simp [context, hr]
  rw [tree?_of_get hr] at ht
  exact ⟨r, ctx, hr, hc, by simp [expand, hc, hr, ht, hd]⟩

end Expansion

structure Calm (s : Session σ) : Prop where
  settled : s.surroundings.cache.Settled
  idle    : ∀ id n, s.tree? id = some n → n.Idle

namespace Calm

theorem new (root : FilePath) (settings : Settings) (advisers : Advisers σ) (memory : σ) :
    Calm (.new root settings advisers memory) where
  settled := .empty
  idle    := nofun

theorem of_store (h : s.Calm) (hc : t.surroundings.cache.Settled) (hs : t.store = s.store) :
    t.Calm where
  settled      := hc
  idle id n hn := h.idle id n <| by rwa [tree?, ← hs]

theorem record (h : s.Calm) (hr : s.store.get id = .ok r) (hn : r.callers = some n) : n.Idle :=
  h.idle id n <| (tree?_of_get hr).trans hn

theorem setRecord (h : s.Calm) (hr : s.store.get id = .ok r)
    (hn : ∀ n, r'.callers = some n → n.Idle) : (s.setRecord id r').Calm where
  settled     := h.settled
  idle i n ht := by
    by_cases hi : i = id
    case pos =>
      rw [hi, tree?_setRecord_self hr] at ht
      exact hn n ht
    case neg =>
      rw [tree?_setRecord_ne i hi] at ht
      exact h.idle i n ht

-- A record can be put back with another origin or analysis.
theorem setRecord_same (h : s.Calm) (hr : s.store.get id = .ok r)
    (hc : r'.callers = r.callers) : (s.setRecord id r').Calm :=
  h.setRecord hr fun _ hn => h.record hr <| hc ▸ hn

theorem expandNode (h : s.Calm) (fs : Files) (ctx : ExpansionContext) (n : CallerNode) :
    (s.expandNode fs ctx n).2.Calm :=
  h.of_store (Expansion.settled_expand _ _ fs ctx false n h.settled) rfl

theorem load (h : s.Calm) (text : Text) : (s.load text).2.Calm := by
  rcases s.load_cases text with ⟨e, he⟩ | ⟨k, store, he⟩
  case inl => rwa [he]
  case inr =>
    have hk : (s.load text).1 = .ok k := congrArg Prod.fst he
    refine ⟨?settled, fun id n ht => ?idle⟩
    case settled => rw [he]; exact .clear _
    case idle    => cases (tree?_load_ok hk id).symm.trans ht

theorem loadFile (h : s.Calm) (fs : Files) (file : FilePath) : (s.loadFile fs file).2.Calm := by
  unfold Session.loadFile
  split
  case h_1 => exact h.load _
  case h_2 => exact h

theorem beginLocate (h : s.Calm) (id : Nat) : (s.beginLocate id).2.Calm := by
  cases hr : s.store.get id
  case error => rwa [beginLocate_unknown hr]
  case ok    =>
    cases hf : s.inFlight id
    case true  => rwa [beginLocate_inFlight hr hf]
    case false =>
      rw [beginLocate_free hr hf]
      exact h.of_store h.settled rfl

theorem finish (h : s.Calm) (d : CompletedLocate) : (s.finish d).2.Calm := by
  have ht : Calm { s with selection := none } := h.of_store h.settled rfl
  obtain he | he | ⟨r, hr, he⟩ := s.finish_cases d
  all_goals rw [he]
  case inl     => exact h
  case inr.inl => exact ht
  case inr.inr => exact ht.setRecord_same hr <| callers_keep ..

theorem analyze (h : s.Calm) (id : Nat) : (s.analyze id).2.Calm := by
  have hm m : Calm { s with surroundings.memory := m } := h.of_store h.settled rfl
  obtain he | ⟨m, he | ⟨r, a, hr, he⟩⟩ := s.analyze_cases id
  all_goals rw [he]
  case inl     => exact h
  case inr.inl => exact hm m
  case inr.inr => exact (hm m).setRecord_same hr rfl

theorem locate (h : s.Calm) (fs : Files) (id : Nat) : (s.locate fs id).2.Calm := by
  obtain he | ⟨r, hr, he⟩ := s.locate_cases fs id
  all_goals rw [he]
  case inl => exact h
  case inr =>
    have hk := h.setRecord_same hr <| callers_keep r (s.resolver.resolve fs r false).1
    exact hk.of_store hk.settled rfl

theorem location (h : s.Calm) (fs : Files) (id : Nat) : (s.location fs id).2.Calm := by
  obtain he | he := s.location_cases fs id
  all_goals rw [he]
  case inl => exact h
  case inr => exact h.locate fs id

-- The root of a tree is idle before it is expanded, and so it is afterwards.
theorem callers (h : s.Calm) (fs : Files) (id : Nat) : (s.callers fs id).2.Calm := by
  have hl := h.location fs id
  have x := s.callers_listing fs id
  generalize ((s.withLog []).callers fs id).2.surroundings.memory.2 = log at x
  generalize (s.callers fs id).1 = answer, (s.callers fs id).2 = t at x ⊢
  cases x
  case unlocated ht   => rwa [ht] at hl
  case elsewhere ht _ => rwa [ht] at hl
  case kept ht _      => rwa [ht] at hl
  case built l t u n file r ctx ht _ hr hn =>
    rw [ht] at hl
    have hx := hl.expandNode fs ctx (.root file l.line)
    have hi : (t.expandNode fs ctx (.root file l.line)).1.Idle :=
      Expansion.idle_expand _ _ fs ctx false _ <| CallerNode.idle_ofInfo _
    rw [hn] at hx hi
    have hr : u.store.get id = .ok r := (expandNode_eq hn).2.1 ▸ hr
    exact hx.setRecord hr fun _ he => Option.some.inj he ▸ hi

theorem expand (h : s.Calm) (fs : Files) (id : Nat) (way : List Nat) :
    (s.expand fs id way).2.Calm := by
  cases ht : s.tree? id
  case none      =>
    obtain ⟨e, he⟩ := expand_treeless fs way ht
    rwa [he]
  case some tree =>
    cases hd : tree.descendant? way
    case none   => rwa [expand_nowhere fs ht hd]
    case some n =>
      obtain ⟨r, ctx, hr, _, he⟩ := expand_somewhere fs ht hd
      rw [he]
      have hi := h.idle id tree ht
      have hn := Expansion.idle_expand s.advisers s.settings.callers fs ctx false s.surroundings <|
        CallerNode.Every.descendant? hi hd
      exact (h.expandNode fs ctx n).setRecord hr fun _ he =>
        Option.some.inj he ▸ CallerNode.Idle.replaceAt hi hn way

end Calm

end Session

namespace SharedSession

variable {σ : Type} {x y : SharedSession σ} {h : History} {e : Event} {time : Nat}

theorem calm_step (hx : x.session.Calm) (st : Step x time e y) : y.session.Calm := by
  cases st
  case load text        => exact hx.load text
  case loadFile fs file => exact hx.loadFile fs file
  case begin id         => exact hx.beginLocate id
  case run              => exact hx.of_store hx.settled rfl
  case finish d _       => exact hx.finish d
  case drop             => exact hx.of_store hx.settled rfl
  case cancel           => exact hx.of_store hx.settled rfl
  case analyze id       => exact hx.analyze id
  case locate fs id     => exact hx.locate fs id
  case callers fs id    => exact hx.callers fs id
  case expand fs id way => exact hx.expand fs id way

theorem Reachable.calm (r : Reachable h x) : x.session.Calm := by
  induction r
  case new          => exact .new ..
  case step _ st hi => exact calm_step hi st

end SharedSession

end LogOrigin
