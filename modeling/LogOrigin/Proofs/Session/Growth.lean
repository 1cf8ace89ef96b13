import LogOrigin.Proofs.Callers.Replacement
import LogOrigin.Proofs.Session.Listing
import Mathlib.Data.List.Induction

-- A tree that grows. Its nodes keep their positions and what they say, and expanded ones keep their
-- children. Only nodes that are expanded get children, and those that the cache has children for.

namespace LogOrigin

namespace CallerNode

variable {n m k a b : CallerNode} {p q way : List Nat} {d : Nat}

theorem descendant?_append (n : CallerNode) (p q : List Nat) :
    n.descendant? (p ++ q) = (n.descendant? p).bind (descendant? q) := by
  induction p generalizing n
  case nil         => rfl
  case cons i p hi =>
    rw [List.cons_append, descendant?, descendant?, Option.bind_assoc _ (descendant? p)]
    exact Option.bind_congr fun c _ => hi c

theorem isSome_of_append (h : (n.descendant? (p ++ q)).isSome) : (n.descendant? p).isSome := by
  rw [descendant?_append] at h
  exact Option.isSome_of_isSome_bind h

theorem descendant?_below (h : n.descendant? way = some a) (p : List Nat) :
    n.descendant? (way ++ p) = a.descendant? p := by
  rw [descendant?_append, h, Option.bind_some]

theorem descendant?_concat (h : n.descendant? way = some a) (i : Nat) :
    n.descendant? (way ++ [i]) = a.children.bind (·[i]?) := by
  rw [descendant?_below h, descendant?]
  exact Option.bind_fun_some _

-- The face of a node shows at which positions it has children.
theorem isSome_concat_iff (h : n.descendant? way = some a) (i : Nat) :
    (n.descendant? (way ++ [i])).isSome ↔ ∃ l, a.face.2.2 = some l ∧ i < l := by
  rw [descendant?_concat h]
  cases hc : a.children <;> simp [face, hc]

-- There is a node at a position, and it is expanded.
def ExpandedAt (n : CallerNode) (q : List Nat) : Prop :=
  ∃ a, n.descendant? q = some a ∧ a.isExpanded = true

theorem ExpandedAt.isExpanded (h : n.ExpandedAt q) (ha : n.descendant? q = some a) :
    a.isExpanded = true := by
  obtain ⟨a', ha', hx⟩ := h
  exact Option.some.inj (ha.symm.trans ha') ▸ hx

-- A later state of a tree. Every node keeps its position and what it says, and once it is expanded
-- it also keeps the number of its children.
def Grows (n m : CallerNode) : Prop :=
  ∀ q a, n.descendant? q = some a → ∃ b, m.descendant? q = some b ∧ b.info = a.info ∧
    (a.isExpanded = true → b.face = a.face)

namespace Grows

theorem refl (n : CallerNode) : n.Grows n :=
  fun _ a ha => ⟨a, ha, rfl, fun _ => rfl⟩

-- A node without children has no other positions to keep.
theorem of_unexpanded (hn : n.isExpanded = false) (hi : m.info = n.info) : n.Grows m := by
  intro q a ha
  cases q
  case nil  =>
    obtain rfl := Option.some.inj ha
    exact ⟨m, rfl, hi, fun hx => by simp [hn] at hx⟩
  case cons =>
    obtain ⟨kids, _, hk, _⟩ := descendant?_cons_iff.mp ha
    simp [isExpanded, hk] at hn

theorem trans (h : n.Grows m) (h' : m.Grows k) : n.Grows k := by
  intro q a ha
  obtain ⟨b, hb, hi, hf⟩ := h q a ha
  obtain ⟨c, hc, hi', hf'⟩ := h' q b hb
  refine ⟨c, hc, hi'.trans hi, fun hx => ?_⟩
  exact (hf' <| (isExpanded_of_face (hf hx)).trans hx).trans (hf hx)

theorem isSome (h : n.Grows m) (hq : (n.descendant? q).isSome) : (m.descendant? q).isSome := by
  obtain ⟨a, ha⟩ := Option.isSome_iff_exists.mp hq
  obtain ⟨b, hb, _⟩ := h q a ha
  exact Option.isSome_of_eq_some hb

theorem expandedAt (h : n.Grows m) (hq : n.ExpandedAt q) : m.ExpandedAt q := by
  obtain ⟨a, ha, hx⟩ := hq
  obtain ⟨b, hb, _, hf⟩ := h q a ha
  exact ⟨b, hb, (isExpanded_of_face (hf hx)).trans hx⟩

-- A tree grows with one of its nodes.
theorem replaceAt (hd : n.descendant? way = some a) (h : a.Grows b) :
    n.Grows (n.replaceAt way b) := by
  intro q c hc
  by_cases hq : way <+: q
  case pos =>
    obtain ⟨p, rfl⟩ := hq
    rw [descendant?_below hd] at hc
    obtain ⟨c', hc', hs⟩ := h p c hc
    exact ⟨c', by rw [descendant?_below (descendant?_replaceAt hd b), hc'], hs⟩
  case neg =>
    have hf := face_descendant?_replaceAt (n := n) hq b
    rw [hc, Option.map_some, Option.map_eq_some_iff] at hf
    obtain ⟨c', hc', hf⟩ := hf
    exact ⟨c', hc', congrArg (·.1) hf, fun _ => hf⟩

theorem isSome_concat_iff (h : n.Grows m) (hx : n.ExpandedAt way) (i : Nat) :
    (m.descendant? (way ++ [i])).isSome ↔ (n.descendant? (way ++ [i])).isSome := by
  obtain ⟨a, ha, hx⟩ := hx
  obtain ⟨b, hb, _, hf⟩ := h way a ha
  rw [CallerNode.isSome_concat_iff hb, CallerNode.isSome_concat_iff ha, hf hx]

-- An expanded node keeps its children where they are, and with them what they say.
theorem outline_eq (h : n.Grows m) (ha : n.descendant? way = some a)
    (hb : m.descendant? way = some b) (hx : a.isExpanded = true) : b.outline = a.outline := by
  obtain ⟨b', hb', hi, hf⟩ := h way a ha
  obtain rfl := Option.some.inj <| hb.symm.trans hb'
  have hx' := (isExpanded_of_face (hf hx)).trans hx
  obtain ⟨l, hl⟩ := Option.isSome_iff_exists.mp hx
  obtain ⟨l', hl'⟩ := Option.isSome_iff_exists.mp hx'
  have infos : l'.map (·.info) = l.map (·.info) := by
    refine List.ext_getElem? fun i => ?_
    have hm : l'[i]? = m.descendant? (way ++ [i]) := by simp [descendant?_concat hb, hl']
    have hn : l[i]? = n.descendant? (way ++ [i]) := by simp [descendant?_concat ha, hl]
    rw [List.getElem?_map, List.getElem?_map, hm, hn]
    cases hc : n.descendant? (way ++ [i])
    case some c =>
      obtain ⟨c', hc', hi, _⟩ := h _ c hc
      rw [hc', Option.map_some, Option.map_some, hi]
    case none   =>
      have hs := mt (h.isSome_concat_iff ⟨a, ha, hx⟩ i).mp <| by simp [hc]
      rw [Option.not_isSome_iff_eq_none.mp hs]
  rw [outline, outline, hi, hl, hl', Option.map_some, Option.map_some, infos]

-- While all nodes up to a depth are expanded, no new ones appear there.
theorem isSome_iff_of_expanded (h : n.Grows m)
    (hx : ∀ q, (n.descendant? q).isSome → q.length < d → n.ExpandedAt q) (hl : q.length ≤ d) :
    (m.descendant? q).isSome ↔ (n.descendant? q).isSome := by
  refine ⟨fun hq => ?_, h.isSome⟩
  induction q using List.reverseRecOn
  case nil              => rfl
  case append_singleton q i hi =>
    rw [List.length_append, List.length_singleton] at hl
    have hn := hi (by omega) (isSome_of_append hq)
    exact (h.isSome_concat_iff (hx q hn (by omega)) i).mp hq

end Grows

end CallerNode

namespace CallerCache

variable {c d : CallerCache} {n m : CallerNode}

-- The other cache knows everything that this one knows.
def Keeps (c d : CallerCache) : Prop :=
  ∀ k l, c.get? k = some l → d.get? k = some l

-- The children of a node are those that the cache knows for its place.
def Supplies (c : CallerCache) (n : CallerNode) : Prop :=
  ∃ l, c.get? n.key = some l ∧ n.outline.2 = some (l.map (·.info))

theorem Supplies.mono (h : c.Supplies n) (hk : c.Keeps d) (ho : m.outline = n.outline) :
    d.Supplies m := by
  obtain ⟨l, hl, hn⟩ := h
  have hi : m.info = n.info := congrArg (·.1) ho
  exact ⟨l, by rw [CallerNode.key, hi]; exact hk _ l hl, by rw [ho, hn]⟩

end CallerCache

-- A later state of a tree in which the nodes at some positions have been expanded. The other nodes
-- that have children either have had them before, or have got them from the cache.
structure CallerNode.Growth (c : CallerCache) (ways : List (List Nat)) (n m : CallerNode) :
    Prop where
  grows    : n.Grows m
  expanded : ∀ q ∈ ways, m.ExpandedAt q
  others   : ∀ q b, m.descendant? q = some b → b.isExpanded = true → q ∉ ways →
    n.ExpandedAt q ∨ c.Supplies b

namespace CallerNode.Growth

variable {c c' : CallerCache} {ways ways' : List (List Nat)} {n m k : CallerNode}

theorem refl (c : CallerCache) (n : CallerNode) : Growth c [] n n where
  grows              := .refl n
  expanded           := nofun
  others _ b hb hx _ := .inl ⟨b, hb, hx⟩

theorem of_isExpanded (c : CallerCache) (h : n.isExpanded = true) : Growth c [[]] n n where
  grows              := .refl n
  expanded _ hq      := ⟨n, List.mem_singleton.mp hq ▸ rfl, h⟩
  others _ b hb hx _ := .inl ⟨b, hb, hx⟩

theorem trans (h : Growth c ways n m) (h' : Growth c' ways' m k) (hk : c.Keeps c') :
    Growth c' (ways ++ ways') n k where
  grows           := h.grows.trans h'.grows
  expanded q hq   := by
    rcases List.mem_append.mp hq with hq | hq
    case inr => exact h'.expanded q hq
    case inl => exact h'.grows.expandedAt <| h.expanded q hq
  others q b hb hx hq := by
    have ⟨hq, hq'⟩ := not_or.mp <| hq ∘ List.mem_append.mpr
    rcases h'.others q b hb hx hq' with ⟨a, ha, hx'⟩ | hs
    case inr => exact .inr hs
    case inl =>
      refine (h.others q a ha hx' hq).imp_right fun hs => ?_
      exact hs.mono hk <| h'.grows.outline_eq ha hb hx'

-- A node that grows by its own expansion makes its tree grow by the expansion at its position.
theorem replaceAt {a b : CallerNode} {way : List Nat} (hd : n.descendant? way = some a)
    (h : Growth c [[]] a b) : Growth c [way] n (n.replaceAt way b) where
  grows         := h.grows.replaceAt hd
  expanded q hq := by
    obtain ⟨b', hb, hx⟩ := h.expanded [] (List.mem_singleton_self _)
    obtain rfl := Option.some.inj hb
    exact ⟨b, List.mem_singleton.mp hq ▸ descendant?_replaceAt hd b, hx⟩
  others q d hd' hx hq := by
    by_cases hw : way <+: q
    case pos =>
      obtain ⟨p, rfl⟩ := hw
      rw [descendant?_below (descendant?_replaceAt hd b)] at hd'
      refine (h.others p d hd' hx <| by simpa using hq).imp_left ?_
      rintro ⟨e, he, hx⟩
      exact ⟨e, by rw [descendant?_below hd, he], hx⟩
    case neg =>
      have hf := face_descendant?_replaceAt (n := n) hw b
      rw [hd', Option.map_some, eq_comm, Option.map_eq_some_iff] at hf
      obtain ⟨e, he, hf⟩ := hf
      exact .inl ⟨e, he, (isExpanded_of_face hf).trans hx⟩

end CallerNode.Growth

namespace CallerNode

variable {n m : CallerNode} {q : List Nat} {d : Nat}

-- The positions of all children of the nodes of a level.
def AreBelow (n : CallerNode) (level below : List (List Nat)) : Prop :=
  ∀ q, q ∈ below ↔ ∃ way ∈ level, ∃ i, q = way ++ [i] ∧ (n.descendant? q).isSome

-- All nodes up to a depth are expanded, and a level has the positions of those at the depth.
structure Frontier (n : CallerNode) (d : Nat) (level : List (List Nat)) : Prop where
  expanded : ∀ q, (n.descendant? q).isSome → q.length ≤ d → n.ExpandedAt q
  mem      : ∀ q, q ∈ level ↔ q.length = d ∧ (n.descendant? q).isSome

namespace Frontier

variable {below level : List (List Nat)} {c : CallerCache}

theorem root (h : n.isExpanded = true) : Frontier n 0 [[]] where
  expanded q _ hq := by
    obtain rfl := List.length_eq_zero_iff.mp <| Nat.le_zero.mp hq
    exact ⟨n, rfl, h⟩
  mem q := by
    rw [List.mem_singleton, List.length_eq_zero_iff]
    constructor
    case mp  => rintro rfl; exact ⟨rfl, rfl⟩
    case mpr => exact And.left

theorem mem_below_iff (h : n.Frontier d level) (hb : n.AreBelow level below) :
    q ∈ below ↔ q.length = d + 1 ∧ (n.descendant? q).isSome := by
  rw [hb q]
  constructor
  case mp  =>
    rintro ⟨way, hw, i, rfl, hs⟩
    exact ⟨by simp [((h.mem way).mp hw).1], hs⟩
  case mpr =>
    rintro ⟨hl, hs⟩
    obtain ⟨way, i, rfl⟩ := (List.eq_nil_or_concat' q).resolve_left <| by
      rintro rfl
      cases hl
    have hl : way.length = d := by simpa using hl
    exact ⟨way, (h.mem way).mpr ⟨hl, isSome_of_append hs⟩, i, rfl, hs⟩

-- Once the children of the level are expanded they are the next one. No node has been added among
-- them or above them.
theorem next (h : n.Frontier d level) (hb : n.AreBelow level below) (hg : Growth c below n m) :
    m.Frontier (d + 1) below := by
  have same {q} (hl : q.length ≤ d + 1) :
      (m.descendant? q).isSome ↔ (n.descendant? q).isSome :=
    hg.grows.isSome_iff_of_expanded (fun q hq hd => h.expanded q hq <| Nat.le_of_lt_succ hd) hl
  constructor
  case mem =>
    intro q
    rw [h.mem_below_iff hb]
    exact and_congr_right fun hl => (same <| Nat.le_of_eq hl).symm
  case expanded =>
    intro q hq hl
    have hq := (same hl).mp hq
    rcases Nat.le_succ_iff.mp hl with hd | hd
    case inl => exact hg.grows.expandedAt <| h.expanded q hq hd
    case inr => exact hg.expanded q <| (h.mem_below_iff hb).mpr ⟨hd, hq⟩

-- Below a level without nodes there are none either.
theorem expanded_of_nil (h : n.Frontier d []) (hq : (n.descendant? q).isSome) :
    n.ExpandedAt q := by
  rcases Nat.le_total q.length d with hd | hd
  case inl => exact h.expanded q hq hd
  case inr =>
    have ht : (n.descendant? (q.take d)).isSome :=
      isSome_of_append (q := q.drop d) <| by rwa [List.take_append_drop]
    cases (h.mem (q.take d)).mpr ⟨List.length_take_of_le hd, ht⟩

end Frontier

end CallerNode

namespace Expansion

variable {σ : Type} {a : Advisers σ} {s : CallerSettings} {fs : Files} {ctx : ExpansionContext}
variable {n m : CallerNode} {w : Surroundings σ} {way : List Nat}

theorem keeps_expand (a : Advisers σ) (s : CallerSettings) (fs : Files) (ctx : ExpansionContext)
    (cancelled : Bool) (n : CallerNode) (w : Surroundings σ) :
    w.cache.Keeps (expand a s fs ctx cancelled n w).2.cache := by
  intro k l hl
  cases hn : n.isExpanded
  case true  => rwa [expand_expanded hn]
  case false =>
    obtain ⟨_, _, he, x⟩ := expand_ends a s fs ctx cancelled w hn
    rw [he]
    exact x.kept hl

-- All that an expansion gives children to, below the new children of its node, gets them from the
-- cache.
theorem Ends.supplied {cancelled : Bool} {kids : List CallerNode} {w' : Surroundings σ}
    {log : List Oracle.Call} (x : Ends a s fs ctx cancelled n w (some kids) w' log)
    {k m : CallerNode} (hk : k ∈ kids) (hm : k.descendant? way = some m)
    (hx : m.isExpanded = true) : w'.cache.Supplies m := by
  obtain ⟨l, rfl, _⟩ := x.hydrated
  rw [Hydration.hydrate_eq_map] at hk
  obtain ⟨k', _, rfl⟩ := List.mem_map.mp hk
  obtain ⟨below, hb⟩ := Option.isSome_iff_exists.mp hx
  obtain ⟨known, hl, hs⟩ := Hydration.infos_of_descendant? hm hb
  exact ⟨known, hl, by rw [CallerNode.outline, hb, Option.map_some, hs]⟩

theorem growth_expand (a : Advisers σ) (s : CallerSettings) (fs : Files) (ctx : ExpansionContext)
    (n : CallerNode) (h : w.cache.Settled) :
    let x := expand a s fs ctx false n w
    CallerNode.Growth x.2.cache [[]] n x.1 := by
  have here := isExpanded_expand a s fs ctx n h
  cases hn : n.isExpanded
  case true  =>
    rw [expand_expanded hn]
    exact .of_isExpanded _ hn
  case false =>
    obtain ⟨children, w', he, x⟩ := expand_ends a s fs ctx false w hn
    rw [he] at here ⊢
    refine ⟨.of_unexpanded hn rfl, fun q hq => ⟨_, List.mem_singleton.mp hq ▸ rfl, here⟩, ?_⟩
    intro q m hm hx hq
    cases q
    case nil      => exact absurd (List.mem_singleton_self _) hq
    case cons i q =>
      obtain ⟨kids, k, hk, hi, hd⟩ := CallerNode.descendant?_cons_iff.mp hm
      obtain rfl : children = some kids := hk
      exact .inr <| x.supplied (List.mem_of_getElem? hi) hd hx

end Expansion

end LogOrigin
