import LogOrigin.Proofs.Callers.Attempt
import LogOrigin.Proofs.Callers.Hydration

-- The same place in different trees. Its nodes are expanded one after the other, each time with
-- other files, advisers and contexts. Once its callers have been ranked nobody is asked about the
-- place again, and it has the same children wherever it is expanded.

namespace LogOrigin

-- Wherever a place has children in a tree, these are what they say.
def CallerNode.Shows (n : CallerNode) (k : CallerKey) (infos : List CallerInfo) : Prop :=
  ∀ way m kids, n.descendant? way = some m → m.key = k → m.children = some kids →
    kids.map (·.info) = infos

namespace Hydration

variable {c : CallerCache} {bound : Nat} {parent k : CallerKey} {children l : List CallerNode}

theorem infos_hydrate (c : CallerCache) (bound : Nat) (parent : CallerKey)
    (children : List CallerNode) :
    (hydrate c bound parent children).map (·.info) = children.map (·.info) := by
  simp [hydrate_eq_map, Function.comp_def]

-- Hydration gives a place the children that the cache knows, at every depth.
theorem shows_hydrate (hk : c.get? k = some l) :
    ∀ n ∈ hydrate c bound parent children, n.Shows k (l.map (·.info)) := by
  rw [hydrate_eq_map]
  intro n hn way m kids hm he hc
  obtain ⟨n', _, rfl⟩ := List.mem_map.mp hn
  have ⟨l', hl, h⟩ := infos_of_descendant? hm hc
  rw [he, hk] at hl
  rw [h, Option.some.inj hl]

end Hydration

namespace Expansion

variable {σ : Type} {a : Advisers σ} {s : CallerSettings} {fs : Files} {ctx : ExpansionContext}
variable {cancelled : Bool} {n : CallerNode} {w w' v : Surroundings σ}
variable {children : Option (List CallerNode)} {kids l : List CallerNode} {k : CallerKey}
variable {log : List Oracle.Call}

namespace Ends

-- What is known about a place is not looked for again.
theorem of_known (x : Ends a s fs ctx cancelled n w children w' log)
    (hl : w.cache.get? n.key = some l) : log = [] ∧ children.isSome := by
  cases x
  case known   => exact ⟨rfl, rfl⟩
  case busy hk => simp [CallerCache.get?, hk] at hl
  all_goals
    have := CallerCache.get?_absent ‹_›
    simp [this] at hl

theorem learnt (x : Ends a s fs ctx cancelled n w children w' log)
    (hs : Succeeded a w.memory log) : (∃ l, w'.cache.get? n.key = some l) ∧ children.isSome := by
  have ⟨request, answer, hm, ha⟩ := hs
  cases x
  case ranked => exact ⟨⟨_, CallerCache.get?_set_ready ..⟩, rfl⟩
  case unranked ho =>
    obtain rfl : request = _ := by simpa using hm
    simp [ho] at ha
  all_goals cases hm

-- All children have been hydrated from the cache that is left behind. If the place of the node is
-- known by then, they are what is known about it.
theorem hydrated (x : Ends a s fs ctx cancelled n w (some kids) w' log) :
    ∃ m, kids = Hydration.hydrate w'.cache s.maxHydrateDepth n.key m ∧
      ∀ l, w'.cache.get? n.key = some l → m = l := by
  have absent {m l : List CallerNode} (hk : w.cache.slot? n.key = none)
      (hl : w.cache.get? n.key = some l) : m = l := by
    simp [CallerCache.get?_absent hk] at hl
  cases x
  case known l hl      => exact ⟨l, rfl, fun _ h => Option.some.inj <| hl.symm.trans h⟩
  case failed hk _ _   => exact ⟨[], by simp [Hydration.hydrate_eq_map], fun _ => absent hk⟩
  case callers hk _    => exact ⟨_, rfl, fun _ => absent hk⟩
  case unranked hk _ _ => exact ⟨_, rfl, fun _ => absent hk⟩
  case ranked          => exact ⟨_, rfl, fun _ h => by simpa using h⟩

theorem shows (x : Ends a s fs ctx cancelled n w children w' log)
    (hl : w'.cache.get? k = some l) :
    (CallerNode.node n.info false children).Shows k (l.map (·.info)) := by
  intro way m kids hm hk hc
  cases children
  case none =>
    cases way
    case nil =>
      obtain rfl := Option.some.inj hm
      cases hc
    case cons => cases hm
  case some below =>
    have ⟨stored, hb, hs⟩ := x.hydrated
    cases way
    case nil =>
      obtain rfl := Option.some.inj hm
      obtain rfl := Option.some.inj hc
      obtain rfl : stored = l := hs l <| hk ▸ hl
      rw [hb, Hydration.infos_hydrate]
    case cons i way =>
      have ⟨child, hi, hm⟩ := Option.bind_eq_some_iff.mp hm
      have hi : child ∈ below := List.mem_of_getElem? hi
      exact Hydration.shows_hydrate hl child (hb ▸ hi) way m kids hm hk hc

end Ends

namespace Attempt

variable {x : Attempt σ}

theorem kept (hl : x.before.cache.get? k = some l) :
    (x.outcome s).2.cache.get? k = some l := by
  cases hn : x.node.isExpanded
  case true => rwa [outcome, expand_expanded hn]
  case false =>
    obtain ⟨_, _, hx⟩ := ends s hn
    exact hx.kept hl

theorem calls_known (hl : x.before.cache.get? x.node.key = some l) : x.calls s = [] := by
  cases hn : x.node.isExpanded
  case true => exact calls_expanded hn
  case false =>
    have ⟨_, _, hx⟩ := ends s hn
    exact (hx.of_known hl).left

theorem isExpanded_known (hl : x.before.cache.get? x.node.key = some l) :
    (x.outcome s).1.isExpanded = true := by
  cases hn : x.node.isExpanded
  case true => rwa [outcome, expand_expanded hn]
  case false =>
    obtain ⟨_, he, hx⟩ := ends s hn
    rw [he]
    exact (hx.of_known hl).right

theorem Ranked.unexpanded (h : x.Ranked s) : x.node.isExpanded = false := by
  have ⟨_, _, hm, _⟩ := h
  cases hn : x.node.isExpanded
  case true  => simp [calls_expanded hn] at hm
  case false => rfl

theorem Ranked.learnt (h : x.Ranked s) : ∃ l, (x.outcome s).2.cache.get? x.node.key = some l := by
  have ⟨_, _, hx⟩ := ends s h.unexpanded
  exact (hx.learnt h).left

theorem Ranked.isExpanded (h : x.Ranked s) : (x.outcome s).1.isExpanded = true := by
  have ⟨_, he, hx⟩ := ends s h.unexpanded
  rw [he]
  exact (hx.learnt h).right

theorem shows (hn : x.node.isExpanded = false) (hl : (x.outcome s).2.cache.get? k = some l) :
    (x.outcome s).1.Shows k (l.map (·.info)) := by
  have ⟨_, he, hx⟩ := ends s hn
  rw [he]
  exact hx.shows hl

end Attempt

-- Expansions one after the other. In between others may use the oracle and look for source files.
inductive Run (s : CallerSettings) : Surroundings σ → List (Attempt σ) → Surroundings σ → Prop where
  | refl (w : Surroundings σ) : Run s w [] w
  | attempt {h : List (Attempt σ)} {v : Surroundings σ} (x : Attempt σ) :
    Run s (x.outcome s).2 h v → Run s x.before (x :: h) v
  | elsewhere {w v : Surroundings σ} {h : List (Attempt σ)} (r : Resolver) (m : σ) :
    Run s ⟨w.cache, r, m⟩ h v → Run s w h v

namespace Run

variable {h before since : List (Attempt σ)} {x : Attempt σ}

-- Without a clearing, what is known about a place is known to all attempts that follow.
theorem known (r : Run s w h v) (hl : w.cache.get? k = some l) :
    ∀ y ∈ h, y.before.cache.get? k = some l := by
  induction r
  case refl             => simp
  case elsewhere _ _ hi => exact hi hl
  case attempt x _ hi   =>
    intro y hy
    cases hy
    case head    => exact hl
    case tail hy => exact hi (Attempt.kept hl) y hy

theorem after (r : Run s w (before ++ x :: since) v) : Run s (x.outcome s).2 since v := by
  generalize hh : before ++ x :: since = h at r
  induction r generalizing before
  case refl             => simp at hh
  case elsewhere _ _ hi => exact hi hh
  case attempt y r hi   =>
    cases before
    case nil =>
      obtain ⟨rfl, rfl⟩ := List.cons.inj hh
      exact r
    case cons => exact hi (List.cons.inj hh).right

-- Whoever comes after a ranking finds its place known.
theorem unasked (r : Run s (x.outcome s).2 since v) (hx : x.Ranked s) :
    ∀ y ∈ since, y.node.key = x.node.key → y.calls s = [] := by
  have ⟨l, hl⟩ := hx.learnt
  intro y hy hk
  exact Attempt.calls_known (hk ▸ r.known hl y hy)

theorem ranked_once (r : Run s w h v) :
    h.Pairwise fun x y => y.node.key = x.node.key → x.Ranked s → ¬y.Ranked s := by
  induction r
  case refl             => exact .nil
  case elsewhere _ _ hi => exact hi
  case attempt x r hi   =>
    refine .cons ?_ hi
    intro y hy hk hx hr
    have ⟨_, _, hm, _⟩ := hr
    simp [r.unasked hx y hy hk] at hm

end Run

-- Each attempt asks the oracle at most once, and of all attempts for a place at most one gets a
-- ranking. From then on the oracle is not asked about the place, all nodes there are expanded, and
-- the place has the same children in the tree of every node that is expanded, whatever its own
-- place.
theorem positions_converge {h : List (Attempt σ)} (r : Run s w h v) :
    (∀ x ∈ h, (x.calls s).length ≤ 1) ∧
    (h.Pairwise fun x y => y.node.key = x.node.key → x.Ranked s → ¬y.Ranked s) ∧
    (∀ before x since, h = before ++ x :: since → x.Ranked s →
      (∀ y ∈ since, y.node.key = x.node.key → y.calls s = []) ∧
      (∀ y ∈ x :: since, y.node.key = x.node.key → (y.outcome s).1.isExpanded = true) ∧
      (∃ infos, ∀ y ∈ x :: since, y.node.isExpanded = false →
        (y.outcome s).1.Shows x.node.key infos)) := by
  refine ⟨fun x _ => x.length_calls_le s, r.ranked_once, ?_⟩
  rintro before x since rfl hx
  have r := r.after
  have ⟨l, hl⟩ := hx.learnt
  refine ⟨r.unasked hx, ?expanded, l.map (·.info), ?shows⟩
  case expanded =>
    intro y hy hk
    cases hy
    case head    => exact hx.isExpanded
    case tail hy => exact Attempt.isExpanded_known (hk ▸ r.known hl y hy)
  case shows =>
    intro y hy hn
    cases hy
    case head    => exact Attempt.shows hn hl
    case tail hy => exact Attempt.shows hn <| Attempt.kept <| r.known hl y hy

-- A place that an oracle fails to rank at first, then ranks, and that is expanded once more without
-- any files, by a node with another spelling of its path and with a token that has been cancelled.
theorem positions_converge_respelled :
    let a : Advisers Unit :=
      ⟨.lexical, fun _ _ _ => some ⟨['f'], 3, 0, 4⟩, fun _ _ _ _ => .known [⟨⟨['a']⟩, 7⟩]⟩
    let s : CallerSettings := ⟨1, 3, 0⟩
    let fs : Files := ⟨.dir [(['a'], .file .empty)], []⟩
    let ctx : ExpansionContext := ⟨[], none, []⟩
    let w : Surroundings Unit := ⟨.empty, .new ⟨['.']⟩ Settings.default.search, ()⟩
    let x : Attempt Unit := ⟨{ a with oracle := .absent }, fs, ctx, false, .root ⟨['a']⟩ 5, w⟩
    let y : Attempt Unit := ⟨a, fs, ctx, false, .root ⟨['a']⟩ 5, (x.outcome s).2⟩
    let z : Attempt Unit := ⟨a, ⟨.dir [], []⟩, ctx, true, .root ⟨['a', '/']⟩ 5, (y.outcome s).2⟩
    (∃ v, Run s w [x, y, z] v) ∧ y.Ranked s ∧ z.calls s = [] ∧ (z.outcome s).1.isExpanded = true ∧
      ∃ infos, (y.outcome s).1.Shows y.node.key infos ∧ (z.outcome s).1.Shows y.node.key infos := by
  intro a s fs ctx w x y z
  have r : Run s w [x, y, z] (z.outcome s).2 := .attempt x <| .attempt y <| .attempt z <| .refl _
  have hc : y.calls s = [.rank (ctx.request [⟨⟨['a']⟩, 7, ['f'], []⟩])] := rfl
  have hy : y.Ranked s := ⟨_, _, hc ▸ List.mem_singleton_self _, rfl⟩
  have ⟨_, _, converge⟩ := positions_converge r
  have ⟨unasked, expanded, infos, shows⟩ := converge [x] y [z] rfl hy
  refine ⟨⟨_, r⟩, hy, unasked z (by simp) rfl, expanded z (by simp) rfl, infos, ?_⟩
  exact ⟨shows y (by simp) rfl, shows z (by simp) rfl⟩

end Expansion

end LogOrigin
