import LogOrigin.Proofs.Callers.Convergence
import LogOrigin.Proofs.Session.Logging
import LogOrigin.Proofs.Session.Setup

-- The callers that a session lists for a record: how a listing can end, with the questions that it
-- asks, and the tree that the record has from then on.

namespace LogOrigin

namespace CallerNode

variable {n m new : CallerNode} {way : List Nat} {i : Nat}

-- What a node and its children say, without anything below them.
def outline (n : CallerNode) : CallerInfo × Option (List CallerInfo) :=
  (n.info, n.children.map fun l => l.map (·.info))

theorem info_replaceAt (h : n.descendant? way = some m) (hi : new.info = m.info) :
    (n.replaceAt way new).info = n.info := by
  cases way
  case nil =>
    obtain rfl := Option.some.inj h
    exact hi
  case cons =>
    unfold replaceAt
    split
    case h_1 => rfl
    case h_2 => split <;> rfl

-- Below the children of a node another node does not matter to its outline.
theorem outline_replaceAt (h : n.descendant? (i :: way) = some m) (hi : new.info = m.info) :
    (n.replaceAt (i :: way) new).outline = n.outline := by
  obtain ⟨c, hc, hm⟩ := Option.bind_eq_some_iff.mp h
  obtain ⟨l, hl, hc⟩ := Option.bind_eq_some_iff.mp hc
  have hk : (l.set i (c.replaceAt way new)).map (·.info) = l.map (·.info) := by
    have he : (l.map (·.info))[i]? = some c.info := by rw [List.getElem?_map, hc, Option.map_some]
    have ⟨_, he⟩ := List.getElem?_eq_some_iff.mp he
    rw [List.map_set, info_replaceAt hm hi, ← he, List.set_getElem_self]
  simp only [replaceAt, hl, hc]
  simp only [outline, withChildren, hl, Option.map_some, ← hk]
  rfl

end CallerNode

theorem RecordStore.get_set_self {s : RecordStore} {id : Nat} {r : Record} (new : Record)
    (h : s.get id = .ok r) : (s.set id new).get id = .ok new :=
  get_eq_ok.mpr <| List.getElem?_set_self <| lt_of_get h

namespace Expansion

variable {σ : Type} {a : Advisers σ} {s : CallerSettings} {fs : Files} {ctx : ExpansionContext}
variable {cancelled : Bool} {n : CallerNode} {w w' : Surroundings σ}

theorem info_expand (a : Advisers σ) (s : CallerSettings) (fs : Files) (ctx : ExpansionContext)
    (cancelled : Bool) (n : CallerNode) (w : Surroundings σ) :
    (expand a s fs ctx cancelled n w).1.info = n.info := by
  unfold expand
  split <;> rfl

-- If the oracle has been asked but cannot answer, the children are the candidates in their order,
-- and the cache is as it was.
theorem Ends.of_failed {children : Option (List CallerNode)} {q : RankRequest} {e : Failure}
    (x : Ends a s fs ctx cancelled n w children w' [.rank q])
    (h : (a.oracle.rank q w.memory).1 = .error e) :
    w'.cache = w.cache ∧ ∃ l kids, l ≠ [] ∧ children = some kids ∧
      kids.map (·.info) = (inOrder l).map (·.info) := by
  generalize hq : [Oracle.Call.rank q] = log at x
  cases x
  case unranked l r e m hk hg ho =>
    exact ⟨rfl, l, _, (gather_candidates hg).right, rfl, Hydration.infos_hydrate ..⟩
  case ranked l r ranked m hk hg ho =>
    obtain rfl : q = ctx.request l := by simpa using hq
    simp [ho] at h
  all_goals cases hq

end Expansion

namespace Session

variable {σ : Type} {s t : Session σ} {fs : Files} {id : Nat} {l : Location} {n : CallerNode}

def location? (s : Session σ) (id : Nat) : Option Location :=
  s.store.records[id]?.bind (·.location)

def tree? (s : Session σ) (id : Nat) : Option CallerNode :=
  s.store.records[id]?.bind (·.callers)

theorem get_setRecord {r : Record} (h : s.store.get id = .ok r) (new : Record) :
    (s.setRecord id new).store.get id = .ok new :=
  RecordStore.get_set_self new h

theorem location?_of_get {r : Record} (h : s.store.get id = .ok r) :
    s.location? id = r.location := by
  simp [location?, RecordStore.get_eq_ok.mp h]

theorem tree?_of_get {r : Record} (h : s.store.get id = .ok r) : s.tree? id = r.callers := by
  simp [tree?, RecordStore.get_eq_ok.mp h]

theorem exists_of_tree? (h : s.tree? id = some n) : ∃ r, s.store.get id = .ok r := by
  obtain ⟨r, hr, _⟩ := Option.bind_eq_some_iff.mp h
  exact ⟨r, RecordStore.get_eq_ok.mpr hr⟩

-- A record has a tree for its location.
structure Lists (s : Session σ) (fs : Files) (id : Nat) (n : CallerNode) : Prop where
  tree  : s.tree? id = some n
  place : ∃ l file, s.location? id = some l ∧
    Hint.translate? fs s.resolver.root l.file = some file ∧ isTreeAt file l.line n

-- The tree is taken as it is, whatever its children are.
theorem Lists.callers_eq (h : s.Lists fs id n) : s.callers fs id = (.ok n, s) := by
  have ⟨r, hr⟩ := exists_of_tree? h.tree
  have hn := tree?_of_get hr ▸ h.tree
  have ⟨l, file, hl, hf, ha⟩ := h.place
  have hl := location?_of_get hr ▸ hl
  simp [callers, location, hr, hl, hf, treeAt, hn, Option.filter, ha]

theorem Lists.expand_root (h : s.Lists fs id n) (hn : n.isExpanded = true) :
    s.expand fs id [] = (.ok (some n), s) := by
  have ⟨r, hr⟩ := exists_of_tree? h.tree
  have hc := tree?_of_get hr ▸ h.tree
  have hs : s.setRecord id { r with callers := some n } = s := by
    rw [← hc, setRecord, RecordStore.set_get hr]
  simp [expand, context, hr, hc, CallerNode.descendant?, expandNode, Expansion.expand_expanded hn,
    CallerNode.replaceAt, hs]

theorem location_ok (h : s.location fs id = (.ok l, t)) :
    ∃ r, t.store.get id = .ok r ∧ r.location = some l := by
  unfold location at h
  split at h
  case h_1 => cases h
  case h_2 r hr =>
    split at h
    case h_1 hl =>
      cases h
      exact ⟨r, hr, hl⟩
    case h_2 =>
      split at h
      case h_1 o u hu =>
        cases h
        simp only [locate, hr, Resolver.locate] at hu
        generalize s.resolver.resolve fs r false = p at hu
        obtain ⟨result, resolver⟩ := p
        cases hu
        exact ⟨_, RecordStore.get_set_self _ hr, rfl⟩
      case h_2 => cases h
      case h_3 => cases h

-- To look for the origin of a record is nothing to the callers and the oracle.
theorem location_surroundings (s : Session σ) (fs : Files) (id : Nat) :
    (s.location fs id).2.surroundings =
      { s.surroundings with resolver := (s.location fs id).2.resolver } := by
  obtain h | h := s.location_cases fs id
  all_goals rw [h]
  case inl => rfl
  case inr =>
    obtain h | ⟨r, _, h⟩ := s.locate_cases fs id
    all_goals rw [h]; rfl

-- The ways in which a listing can end: with its answer, with the session that it leaves behind, and
-- with the questions to the oracle.
inductive Listing (s : Session σ) (fs : Files) (id : Nat) :
    Except Failure CallerNode → Session σ → List Oracle.Call → Prop where
  | unlocated {e : Failure} {t : Session σ} :
    s.location fs id = (.error e, t) →
    Listing s fs id (.error e) t []
  | elsewhere {l : Location} {t : Session σ} :
    s.location fs id = (.ok l, t) →
    Hint.translate? fs t.resolver.root l.file = none →
    Listing s fs id (.error (.unresolved id)) t []
  | kept {l : Location} {t : Session σ} {n : CallerNode} :
    s.location fs id = (.ok l, t) →
    Lists t fs id n →
    Listing s fs id (.ok n) t []
  | built {l : Location} {t u : Session σ} {n : CallerNode} {file : FilePath} {r : Record}
      {ctx : ExpansionContext} :
    s.location fs id = (.ok l, t) →
    Hint.translate? fs t.resolver.root l.file = some file →
    t.store.get id = .ok r →
    t.expandNode fs ctx (.root file l.line) = (n, u) →
    Listing s fs id (.ok n) (u.setRecord id { r with callers := some n })
      (Expansion.calls t.advisers t.settings.callers fs ctx false (.root file l.line)
        t.surroundings)

theorem callers_listing (s : Session σ) (fs : Files) (id : Nat) :
    Listing s fs id (s.callers fs id).1 (s.callers fs id).2
      ((s.withLog []).callers fs id).2.surroundings.memory.2 := by
  unfold callers
  rw [location_withLog]
  rcases hl : s.location fs id with ⟨result, t⟩
  cases result
  case error e => exact .unlocated hl
  case ok l    =>
    have ht : (t.withLog []).resolver.root = t.resolver.root := rfl
    dsimp only
    rw [ht]
    cases hf : Hint.translate? fs t.resolver.root l.file
    case none      => exact .elsewhere hl hf
    case some file =>
      obtain ⟨r, hr, hr'⟩ := location_ok hl
      have hr₁ : (t.withLog []).store.get id = .ok r := hr
      have hc : (t.withLog []).context id = t.context id := rfl
      simp only [treeAt, hr, hr₁, hc]
      cases hn : r.callers.filter (isTreeAt file l.line)
      case some n =>
        obtain ⟨hn, ha⟩ := Option.filter_eq_some_iff.mp hn
        refine .kept hl ⟨?_, l, file, ?_, hf, ha⟩
        · rw [tree?_of_get hr, hn]
        · rw [location?_of_get hr, hr']
      case none =>
        simp only [context, hr]
        exact .built hl hf hr rfl

theorem expandNode_eq {ctx : ExpansionContext} {m : CallerNode}
    (h : s.expandNode fs ctx m = (n, t)) :
    n.info = m.info ∧ t.store = s.store ∧ t.resolver.root = s.resolver.root := by
  have hi : (s.expandNode fs ctx m).1.info = m.info := Expansion.info_expand ..
  have hs : (s.expandNode fs ctx m).2.store = s.store := rfl
  have hr := (s.same_expandNode fs ctx m).repository.root
  rw [h] at hi hs hr
  exact ⟨hi, hs, hr⟩

-- Whatever a listing answers with is the tree of the record, for its location.
theorem Listing.lists {log : List Oracle.Call} (x : Listing s fs id (.ok n) t log) :
    t.Lists fs id n := by
  cases x
  case kept h => exact h
  case built l t u file r ctx hl hf hr hn =>
    obtain ⟨r', hr', hl'⟩ := location_ok hl
    obtain rfl : r = r' := Except.ok.inj <| hr.symm.trans hr'
    obtain ⟨hi, hs, hp⟩ := expandNode_eq hn
    have hg := get_setRecord (hs ▸ hr) { r with callers := some n }
    refine ⟨tree?_of_get hg, l, file, ?_, ?_, ?_⟩
    · rw [location?_of_get hg, hl']
    · exact hp ▸ hf
    · rw [isTreeAt, hi]
      simp [CallerNode.root, CallerNode.ofInfo, CallerNode.info, FilePath.same_refl]

-- If the oracle has been asked but cannot answer, nobody has ranked the callers that are listed,
-- and nothing new is remembered about them.
theorem Listing.of_failed {answer : Except Failure CallerNode} {q : RankRequest} {e : Failure}
    (x : Listing s fs id answer t [.rank q])
    (h : (s.advisers.oracle.rank q s.surroundings.memory).1 = .error e) :
    t.surroundings.cache = s.surroundings.cache ∧
    ∃ n kids, answer = .ok n ∧ n.children = some kids ∧ kids ≠ [] ∧
      ∀ k ∈ kids, k.info.explanation = Expansion.unranked := by
  generalize hlog : [Oracle.Call.rank q] = log at x
  cases x
  case built l t u n file r ctx hl hf hr hn =>
    have hs := s.location_surroundings fs id
    have ha := (s.same_location fs id).advisers
    simp only [hl] at hs ha
    obtain ⟨children, w, he, x⟩ := Expansion.expand_ends t.advisers t.settings.callers fs ctx
      false t.surroundings (n := .root file l.line) rfl
    rw [← hlog] at x
    simp only [expandNode, he] at hn
    obtain ⟨rfl, rfl⟩ := Prod.mk.inj hn
    obtain ⟨hc, l', kids, hl', hk, hi⟩ := x.of_failed (by rwa [hs, ha])
    refine ⟨by simpa [setRecord, hs] using hc, _, kids, rfl, hk, ?_, ?_⟩
    · rintro rfl
      exact hl' <| by simpa [Expansion.inOrder] using hi
    · intro k hm
      have hm : k.info ∈ kids.map (·.info) := List.mem_map_of_mem hm
      rw [hi] at hm
      simp only [Expansion.inOrder, List.map_map, List.mem_map] at hm
      obtain ⟨c, _, hc⟩ := hm
      exact hc ▸ rfl
  all_goals cases hlog

end Session

end LogOrigin
