import LogOrigin.Proofs.Session.Growth
import LogOrigin.Proofs.Session.Frame
import LogOrigin.Session.Depth

-- The expansion of a tree to a depth expands every node above it, level by level. It keeps what the
-- tree has had, and further down only the cache gives children to a node.

namespace LogOrigin

namespace Session

variable {σ : Type} {s t u : Session σ} {fs : Files} {id d : Nat} {n m : CallerNode}
variable {way q : List Nat} {ways ways' level : List (List Nat)}

-- A later state of a session, in which the nodes at some positions in the tree of a record have
-- been expanded.
structure Deepened (id : Nat) (ways : List (List Nat)) (s t : Session σ) : Prop where
  calm : t.Calm
  kept : s.surroundings.cache.Keeps t.surroundings.cache
  tree : ∀ n, s.tree? id = some n → ∃ m, t.tree? id = some m ∧
    CallerNode.Growth t.surroundings.cache ways n m

namespace Deepened

theorem refl (h : s.Calm) (id : Nat) : Deepened id [] s s where
  calm      := h
  kept _ _ h := h
  tree n ht := ⟨n, ht, .refl _ n⟩

theorem trans (h : Deepened id ways s t) (h' : Deepened id ways' t u) :
    Deepened id (ways ++ ways') s u where
  calm        := h'.calm
  kept k l hl := h'.kept k l <| h.kept k l hl
  tree n ht   := by
    obtain ⟨m, hm, hg⟩ := h.tree n ht
    obtain ⟨k, hk, hg'⟩ := h'.tree m hm
    exact ⟨k, hk, hg.trans hg' h'.kept⟩

end Deepened

theorem deepened_expand (h : s.Calm) (ht : s.tree? id = some n) (fs : Files)
    (hw : (n.descendant? way).isSome) :
    ∃ m t, s.expand fs id way = (.ok (some m), t) ∧ Deepened id [way] s t := by
  obtain ⟨a, ha⟩ := Option.isSome_iff_exists.mp hw
  obtain ⟨r, ctx, hr, _, he⟩ := expand_somewhere fs ht ha
  refine ⟨_, _, he, ?calm, ?kept, ?tree⟩
  case calm => simpa only [he] using h.expand fs id way
  case kept => exact Expansion.keeps_expand s.advisers s.settings.callers fs ctx false a _
  case tree =>
    intro n' hn
    obtain rfl := Option.some.inj <| ht.symm.trans hn
    have hr : (s.expandNode fs ctx a).2.store.get id = .ok r := hr
    have hg := Expansion.growth_expand s.advisers s.settings.callers fs ctx a h.settled
    exact ⟨_, tree?_setRecord_self hr _, hg.replaceAt ha⟩

-- Positions of nodes can be expanded one after the other, as no expansion takes a node away.
theorem deepened_expandAll (h : s.Calm) (ht : s.tree? id = some n) (fs : Files)
    (hw : ∀ q ∈ ways, (n.descendant? q).isSome) :
    ∃ t, expandAll fs id ways s = (.ok (), t) ∧ Deepened id ways s t := by
  induction ways generalizing s n
  case nil              => exact ⟨s, rfl, .refl h id⟩
  case cons way ways hi =>
    have ⟨hw, hws⟩ := List.forall_mem_cons.mp hw
    obtain ⟨_, t, he, hd⟩ := deepened_expand h ht fs hw
    obtain ⟨m, hm, hg⟩ := hd.tree n ht
    obtain ⟨u, he', hd'⟩ := hi hd.calm hm fun q hq => hg.grows.isSome <| hws q hq
    exact ⟨u, by rw [expandAll, he]; exact he', hd.trans hd'⟩

theorem mem_childWays {r : Record} {a : CallerNode} (hr : r.callers = some n)
    (ha : n.descendant? way = some a) :
    q ∈ childWays r way ↔ ∃ i, q = way ++ [i] ∧ (n.descendant? q).isSome := by
  have hc : q ∈ childWays r way ↔ ∃ i < (a.children.getD []).length, way ++ [i] = q := by
    simp [childWays, hr, ha]
  have hs i : i < (a.children.getD []).length ↔ (n.descendant? (way ++ [i])).isSome := by
    rw [CallerNode.descendant?_concat ha]
    cases a.children <;> simp
  simp only [hc, hs]
  constructor
  case mp  => exact fun ⟨i, hi, he⟩ => ⟨i, he.symm, he ▸ hi⟩
  case mpr => exact fun ⟨i, he, hi⟩ => ⟨i, he ▸ hi, he.symm⟩

-- A level whose nodes are expanded gives the positions of all their children, which are expanded
-- afterwards.
theorem deepened_expandLevel (h : s.Calm) (ht : s.tree? id = some n) (fs : Files)
    (hl : ∀ way ∈ level, n.ExpandedAt way) :
    ∃ below t, expandLevel fs id level s = (.ok below, t) ∧ Deepened id below s t ∧
      n.AreBelow level below := by
  induction level generalizing s n
  case nil                => exact ⟨[], s, rfl, .refl h id, fun q => by simp⟩
  case cons way level hi =>
    have ⟨⟨a, ha, hx⟩, hl⟩ := List.forall_mem_cons.mp hl
    obtain ⟨r, hr⟩ := exists_of_tree? ht
    have hc : r.callers = some n := tree?_of_get hr ▸ ht
    have hw q := mem_childWays (q := q) hc ha
    obtain ⟨t, he, hd⟩ := deepened_expandAll h ht fs fun q hq => ((hw q).mp hq).choose_spec.2
    obtain ⟨m, hm, hg⟩ := hd.tree n ht
    obtain ⟨below, u, he', hd', hb⟩ :=
      hi hd.calm hm fun q hq => hg.grows.expandedAt <| hl q hq
    refine ⟨childWays r way ++ below, u, ?run, hd.trans hd', fun q => ?mem⟩
    case run => simp only [expandLevel, hr, he, he']
    case mem =>
      -- The nodes of the level have had their children already, so that there are no others now.
      have hs : ∀ way ∈ level, (∃ i, q = way ++ [i] ∧ (m.descendant? q).isSome) ↔
          ∃ i, q = way ++ [i] ∧ (n.descendant? q).isSome := by
        refine fun way hway => exists_congr fun i => and_congr_right fun hq => ?_
        rw [hq, hg.grows.isSome_concat_iff (hl way hway)]
      rw [List.mem_append, hw, hb q, List.exists_mem_cons_iff]
      exact or_congr_right <| exists_congr fun way => and_congr_right fun hway => hs way hway

-- As many levels as asked for are expanded, unless the nodes run out before.
theorem deepened_expandLevels (h : s.Calm) (ht : s.tree? id = some n) (fs : Files) (k : Nat)
    (hf : n.Frontier d level) : ∃ ways t m, expandLevels fs id k level s = (.ok (), t) ∧
      Deepened id ways s t ∧ (∀ q ∈ ways, q.length ≤ d + k) ∧ t.tree? id = some m ∧
      ∀ q, (m.descendant? q).isSome → q.length ≤ d + k → m.ExpandedAt q := by
  induction k generalizing s n d level
  case zero       =>
    exact ⟨[], s, n, rfl, .refl h id, nofun, ht, hf.expanded⟩
  case succ k hi =>
    cases hl : level.isEmpty
    case true  =>
      obtain rfl := List.isEmpty_iff.mp hl
      exact ⟨[], s, n, rfl, .refl h id, nofun, ht, fun q hq _ => hf.expanded_of_nil hq⟩
    case false =>
      obtain ⟨below, t, he, hd, hb⟩ := deepened_expandLevel h ht fs fun way hw =>
        have ⟨hl, hs⟩ := (hf.mem way).mp hw
        hf.expanded way hs <| Nat.le_of_eq hl
      obtain ⟨m, hm, hg⟩ := hd.tree n ht
      have hf' := hf.next hb hg
      obtain ⟨ways, u, m', he', hd', hw, hm', hx⟩ := hi hd.calm hm hf'
      refine ⟨below ++ ways, u, m', ?run, hd.trans hd', ?ways, hm', ?expanded⟩
      case run      => simp only [expandLevels, hl, he, he', Bool.false_eq_true, if_false]
      case expanded => exact fun q hq hl => hx q hq <| by omega
      case ways     =>
        intro q hq
        rcases List.mem_append.mp hq with hq | hq
        case inl =>
          have := ((hf'.mem q).mp hq).1
          omega
        case inr =>
          have := hw q hq
          omega

end Session

namespace SharedSession

variable {σ : Type} {x : SharedSession σ} {h : History} {id : Nat} {tree : CallerNode}

-- The expansion to a depth succeeds. Every node above the depth is expanded then, and none is
-- loading. Nodes that have been there before keep their positions and what they say, and those that
-- have been expanded keep their children. From the depth on, a node is expanded if it has been so
-- before, or if its children are those in the cache.
theorem expandToDepth_expands (r : Reachable h x) (ht : x.session.tree? id = some tree)
    (he : tree.isExpanded = true) (fs : Files) (depth : Nat) :
    ∃ t tree', x.session.expandToDepth fs id depth = (.ok (), t) ∧ t.tree? id = some tree' ∧
      (∀ q m, tree'.descendant? q = some m → q.length < max depth 1 →
        m.isExpanded = true ∧ m.loading = false) ∧
      (∀ q n, tree.descendant? q = some n → ∃ m, tree'.descendant? q = some m ∧
        m.info = n.info ∧ m.loading = n.loading ∧
        (n.isExpanded = true → m.outline = n.outline)) ∧
      ∀ q m, tree'.descendant? q = some m → max depth 1 ≤ q.length → m.isExpanded = true →
        (∃ n, tree.descendant? q = some n ∧ n.isExpanded = true) ∨
        ∃ l, t.surroundings.cache.get? m.key = some l ∧
          m.outline.2 = some (l.map (·.info)) := by
  obtain ⟨ways, t, tree', hrun, hd, hw, ht', hx⟩ :=
    Session.deepened_expandLevels r.calm ht fs (depth - 1) (.root he)
  obtain ⟨m', hm', hg⟩ := hd.tree tree ht
  obtain rfl := Option.some.inj <| ht'.symm.trans hm'
  have idle := r.calm.idle id tree ht
  have idle' := hd.calm.idle id tree' ht'
  refine ⟨t, tree', hrun, ht', ?above, ?kept, ?below⟩
  case above =>
    intro q m hm hq
    refine ⟨(hx q (Option.isSome_of_eq_some hm) ?_).isExpanded hm, idle'.loading hm⟩
    omega
  case kept =>
    intro q n hn
    obtain ⟨m, hm, hi, _⟩ := hg.grows q n hn
    exact ⟨m, hm, hi, (idle'.loading hm).trans (idle.loading hn).symm, hg.grows.outline_eq hn hm⟩
  case below =>
    intro q m hm hq hxm
    refine hg.others q m hm hxm fun hqw => ?_
    have := hw q hqw
    omega

section Recursive

-- A session with two calls of the function that they stand in, whose oracle leaves calls as they
-- are.
def recursive : Session Unit :=
  .new ⟨['.']⟩ Settings.default ⟨{ Oracle.absent with rank := fun _ m => (.ok [], m) },
    paired.symbols⟩ ()

-- The same session after the calls have been listed for a record.
def recursive.listed : Session Unit :=
  ((recursive.load paired.log).2.callers paired.files 0).2

theorem reachable_recursive :
    Reachable [.listed 0, .loaded (recursive.load paired.log).1] ⟨recursive.listed, []⟩ :=
  have r : Reachable [] ⟨recursive, []⟩ := .new ..
  (r.step <| .load paired.log).step <| .callers paired.files 0

-- The callers of the first call are known when the second one is expanded, so that the first one
-- has them there as well. Below the first one nothing has been known about the second one.
theorem expandToDepth_expands_recursive :
    let t := (recursive.listed.expandToDepth paired.files 0 2).2
    let node (s : Session Unit) (q : List Nat) := (s.tree? 0).bind (·.descendant? q)
    (node recursive.listed [1]).map (·.isExpanded) = some false ∧
    (node t [1]).map (·.isExpanded) = some true ∧
    (node t [0, 1]).map (·.isExpanded) = some false ∧
    ∃ m l, node t [1, 0] = some m ∧ m.isExpanded = true ∧
      t.surroundings.cache.get? m.key = some l ∧ m.outline.2 = some (l.map (·.info)) := by
  intro t node
  have before : (node recursive.listed [1]).map (·.isExpanded) = some false := by decide +kernel
  have missing : (node recursive.listed [1, 0]).isNone := by decide +kernel
  have below : (node t [0, 1]).map (·.isExpanded) = some false := by decide +kernel
  have supplied : (node t [1, 0]).map (·.isExpanded) = some true := by decide +kernel
  have root : (recursive.listed.tree? 0).map (·.isExpanded) = some true := by decide +kernel
  obtain ⟨tree, ht, he⟩ := Option.map_eq_some_iff.mp root
  obtain ⟨t', tree', hrun, ht', above, kept, others⟩ :=
    expandToDepth_expands reachable_recursive ht he paired.files 2
  obtain rfl : t = t' := congrArg Prod.snd hrun
  obtain ⟨n, hn, _⟩ := Option.map_eq_some_iff.mp before
  obtain ⟨m, hm, hx⟩ := Option.map_eq_some_iff.mp supplied
  refine ⟨before, ?first, below, m, ?known⟩
  all_goals simp only [node, ht, ht', Option.bind_some] at hn hm missing ⊢
  case first =>
    obtain ⟨n', hn', _⟩ := kept [1] n hn
    rw [hn', Option.map_some, (above [1] n' hn' (by decide)).1]
  case known =>
    rcases others [1, 0] m hm (by decide) hx with ⟨_, hn, _⟩ | ⟨l, hl, ho⟩
    case inl => simp [hn] at missing
    case inr => exact ⟨l, hm, hx, hl, ho⟩

end Recursive

end SharedSession

end LogOrigin
