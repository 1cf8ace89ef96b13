import LogOrigin.Text.KeyMap
import Mathlib.Data.List.Nodup

-- Maps by their members: what is looked up in a map is a member of it, and what is erased is the
-- only member with its key.

namespace LogOrigin.KeyMap

variable {α : Type} {k : Text} {v : α} {m : List (Text × α)} {ks ls : List Text}

-- The members whose keys are none of the given ones.
def without (ks : List Text) (m : List (Text × α)) : List (Text × α) :=
  m.filter fun e => e.1 ∉ ks

theorem mem_of_get? (h : get? k m = some v) : (k, v) ∈ m := by
  induction m
  case nil         => cases h
  case cons e m hi =>
    unfold get? at h
    split at h
    case isTrue hk =>
      cases h
      exact hk ▸ List.mem_cons_self ..
    case isFalse   => exact List.mem_cons_of_mem _ (hi h)

theorem get?_of_mem (hs : Sorted m) (h : (k, v) ∈ m) : get? k m = some v := by
  induction m
  case nil         => cases h
  case cons e m hi =>
    have ⟨he, hs⟩ := List.pairwise_cons.mp hs
    unfold get?
    rcases List.mem_cons.mp h with rfl | h
    case inl => exact if_pos rfl
    case inr => rw [if_neg (he _ h).2.symm, hi hs h]

theorem get?_map {β : Type} (f : α → β) (k : Text) (m : List (Text × α)) :
    get? k (m.map fun e => (e.1, f e.2)) = (get? k m).map f := by
  induction m
  case nil         => rfl
  case cons e m hi => by_cases h : k = e.1 <;> simp [get?, h, hi]

theorem isSome_get? (k : Text) (m : List (Text × α)) :
    (get? k m).isSome = m.any fun e => k = e.1 := by
  induction m
  case nil         => rfl
  case cons e m hi => by_cases h : k = e.1 <;> simp [get?, h, hi]

theorem erase_sublist (k : Text) (m : List (Text × α)) : List.Sublist (erase k m) m := by
  induction m
  case nil         => exact .slnil
  case cons e m hi =>
    unfold erase
    split
    case isTrue  => exact List.sublist_cons_self ..
    case isFalse => exact hi.cons_cons _

theorem Sorted.nodup (hs : Sorted m) : (m.map Prod.fst).Nodup :=
  List.pairwise_map.mpr (hs.imp And.right)

theorem Sorted.without (hs : Sorted m) (ks : List Text) : Sorted (without ks m) :=
  hs.sublist List.filter_sublist

@[simp]
theorem without_nil (m : List (Text × α)) : without [] m = m := by
  simp [without]

theorem without_singleton (k : Text) (m : List (Text × α)) :
    without [k] m = m.filter fun e => e.1 ≠ k := by
  simp [without]

theorem without_without (ks ls : List Text) (m : List (Text × α)) :
    without ls (without ks m) = without (ks ++ ls) m := by
  simp [without, List.filter_filter, Bool.and_comm]

theorem erase_eq_without (hs : Sorted m) (k : Text) : erase k m = without [k] m := by
  induction m
  case nil         => rfl
  case cons e m hi =>
    have ⟨he, hs⟩ := List.pairwise_cons.mp hs
    unfold erase
    split
    case isTrue hk  =>
      have hm : without [k] m = m :=
        List.filter_eq_self.mpr fun f hf => by simpa [hk] using (he f hf).2.symm
      simpa [without, ← hk] using hm.symm
    case isFalse hk =>
      have := hi hs
      simp_all [without, Ne.symm hk]

theorem get?_without (h : k ∉ ks) (m : List (Text × α)) : get? k (without ks m) = get? k m := by
  induction m
  case nil         => rfl
  case cons e m hi =>
    by_cases he : e.1 ∈ ks
    case pos =>
      have : k ≠ e.1 := fun hk => h (hk ▸ he)
      simpa [without, he, get?, this] using hi
    case neg => simpa [without, he, get?] using congrArg (if k = e.1 then some e.2 else ·) hi

theorem mem_keys_without : k ∈ (without ks m).map Prod.fst ↔ k ∈ m.map Prod.fst ∧ k ∉ ks := by
  simp [without, and_comm]

-- What is taken out of a map and what stays are all of its keys, each of them once.
theorem perm_without (hm : Sorted m) (hk : ks.Nodup) (hs : ∀ k ∈ ks, k ∈ m.map Prod.fst) :
    (ks ++ (without ks m).map Prod.fst).Perm (m.map Prod.fst) := by
  have hd : ks.Disjoint ((without ks m).map Prod.fst) :=
    fun k hk hw => (mem_keys_without.mp hw).2 hk
  rw [List.perm_ext_iff_of_nodup (hk.append (hm.without ks).nodup hd) hm.nodup]
  intro k
  rw [List.mem_append, mem_keys_without]
  by_cases h : k ∈ ks
  case pos => exact iff_of_true (.inl h) (hs k h)
  case neg => simp [h]

end LogOrigin.KeyMap
