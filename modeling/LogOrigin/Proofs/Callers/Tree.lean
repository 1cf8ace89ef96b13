import LogOrigin.Proofs.Callers.Hydration

-- Properties that all nodes of a tree have, wherever they stand in it.

namespace LogOrigin

namespace CallerNode

variable {n m new : CallerNode} {way : List Nat} {i : Nat}

theorem descendant?_cons_iff : n.descendant? (i :: way) = some m ↔
    ∃ kids k, n.children = some kids ∧ kids[i]? = some k ∧ k.descendant? way = some m := by
  simp only [descendant?, Option.bind_eq_some_iff]
  constructor
  case mp  => exact fun ⟨k, ⟨kids, hc, hk⟩, hm⟩ => ⟨kids, k, hc, hk, hm⟩
  case mpr => exact fun ⟨kids, k, hc, hk, hm⟩ => ⟨k, ⟨kids, hc, hk⟩, hm⟩

section Every

variable {p : CallerInfo → Bool → Prop}

-- A property of all nodes of a tree, which is not about their children.
def Every (p : CallerInfo → Bool → Prop) (n : CallerNode) : Prop :=
  ∀ way m, n.descendant? way = some m → p m.info m.loading

theorem Every.self (h : n.Every p) : p n.info n.loading :=
  h [] n rfl

theorem every_iff : n.Every p ↔
    p n.info n.loading ∧ ∀ kids, n.children = some kids → ∀ k ∈ kids, k.Every p := by
  constructor
  case mp =>
    intro h
    refine ⟨h.self, fun kids hc k hk way m hm => ?_⟩
    have ⟨i, hi⟩ := List.mem_iff_getElem?.mp hk
    exact h (i :: way) m <| descendant?_cons_iff.mpr ⟨kids, k, hc, hi, hm⟩
  case mpr =>
    rintro ⟨hn, hk⟩ way m hm
    cases way
    case nil  => exact Option.some.inj hm ▸ hn
    case cons =>
      have ⟨kids, k, hc, hi, hm⟩ := descendant?_cons_iff.mp hm
      exact hk kids hc k (List.mem_of_getElem? hi) _ m hm

theorem every_ofInfo {i : CallerInfo} (h : p i false) : (ofInfo i).Every p :=
  every_iff.mpr ⟨h, nofun⟩

theorem Every.descendant? (h : n.Every p) (hm : n.descendant? way = some m) : m.Every p := by
  induction way generalizing n
  case nil          => exact Option.some.inj hm ▸ h
  case cons i _ hi =>
    have ⟨kids, k, hc, hk, hm⟩ := descendant?_cons_iff.mp hm
    exact hi ((every_iff.mp h).2 kids hc k <| List.mem_of_getElem? hk) hm

theorem Every.replaceAt (h : n.Every p) (hn : new.Every p) (way : List Nat) :
    (n.replaceAt way new).Every p := by
  induction way generalizing n
  case nil           => cases n; exact hn
  case cons i way hi =>
    unfold CallerNode.replaceAt
    split
    case h_1      => exact h
    case h_2 l hc =>
      split
      case h_1      => exact h
      case h_2 c hl =>
        have ⟨hi', hl'⟩ := every_iff.mp h
        refine every_iff.mpr ⟨hi', ?_⟩
        rintro _ ⟨⟩ k hk
        rcases List.mem_or_eq_of_mem_set hk with hk | rfl
        case inl => exact hl' l hc k hk
        case inr => exact hi <| hl' l hc c <| List.mem_of_getElem? hl

end Every

variable {p : CallerInfo → Prop}

-- A property of what all nodes of a tree say.
def All (p : CallerInfo → Prop) (n : CallerNode) : Prop :=
  ∀ way m, n.descendant? way = some m → p m.info

theorem All.info (h : n.All p) : p n.info :=
  Every.self (p := fun i _ => p i) h

theorem all_iff :
    n.All p ↔ p n.info ∧ ∀ kids, n.children = some kids → ∀ k ∈ kids, k.All p :=
  every_iff (p := fun i _ => p i)

theorem all_ofInfo {i : CallerInfo} (h : p i) : (ofInfo i).All p :=
  every_ofInfo (p := fun i _ => p i) h

theorem All.descendant? (h : n.All p) (hm : n.descendant? way = some m) : m.All p :=
  Every.descendant? (p := fun i _ => p i) h hm

theorem All.replaceAt (h : n.All p) (hn : new.All p) (way : List Nat) :
    (n.replaceAt way new).All p :=
  Every.replaceAt (p := fun i _ => p i) h hn way

end CallerNode

-- A property of all callers that are known.
def CallerCache.All (p : CallerInfo → Prop) (c : CallerCache) : Prop :=
  ∀ k l, c.get? k = some l → ∀ n ∈ l, n.All p

theorem CallerCache.All.set {p : CallerInfo → Prop} {c : CallerCache} {l : List CallerNode}
    (h : c.All p) (k : CallerKey) (hl : ∀ n ∈ l, n.All p) : (c.set k (.ready l)).All p := by
  intro k' l' hk
  by_cases he : k' = k
  case pos =>
    rw [he, get?_set_ready] at hk
    exact Option.some.inj hk ▸ hl
  case neg =>
    rw [get?_congr <| slot?_set_ne he ..] at hk
    exact h k' l' hk

namespace Hydration

variable {p : CallerInfo → Prop} {c : CallerCache} {bound depth : Nat} {path : List CallerKey}
variable {n : CallerNode}

@[simp]
theorem loading_expanded (c : CallerCache) (bound depth : Nat) (path : List CallerKey)
    (n : CallerNode) : (expanded c bound depth path n).loading = false := by
  rcases expanded_cases c bound depth path n with h | ⟨_, _, _, _, h⟩
  all_goals rw [h]; rfl

-- Nothing below a node that the cache has led to is loading.
theorem every_expanded {p : CallerInfo → Bool → Prop} (hc : c.All (p · false))
    (hn : p n.info false) : (expanded c bound depth path n).Every p := by
  intro way
  induction way generalizing depth path n
  case nil =>
    rintro m ⟨⟩
    rwa [info_expanded, loading_expanded]
  case cons _ _ hi =>
    intro m hm
    have ⟨kids, k, hk, hm', hm⟩ := CallerNode.descendant?_cons_iff.mp hm
    obtain ⟨_, l, hl, rfl⟩ := children_expanded hk
    obtain ⟨k', hk', rfl⟩ := List.mem_map.mp <| List.mem_of_getElem? hm'
    exact hi (hc _ l hl k' hk').info m hm

theorem every_hydrate {p : CallerInfo → Bool → Prop} {parent : CallerKey}
    {children : List CallerNode} (hc : c.All (p · false)) (h : ∀ n ∈ children, p n.info false) :
    ∀ n ∈ hydrate c bound parent children, n.Every p := by
  rw [hydrate_eq_map]
  intro n hn
  obtain ⟨n', hn', rfl⟩ := List.mem_map.mp hn
  exact every_expanded hc <| h n' hn'

-- What hydration adds to callers comes from the cache.
theorem all_hydrate {parent : CallerKey} {children : List CallerNode} (hc : c.All p)
    (h : ∀ n ∈ children, p n.info) : ∀ n ∈ hydrate c bound parent children, n.All p :=
  every_hydrate (p := fun i _ => p i) hc h

end Hydration

end LogOrigin
