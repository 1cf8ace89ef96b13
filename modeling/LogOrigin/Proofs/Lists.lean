import Mathlib.Data.List.Nodup
import Mathlib.Data.Set.Card

-- Lists that are sorted, where elements that a sort takes for equal keep the order that they have
-- had, and lists without repetitions, where the length is the number of elements.

namespace LogOrigin

namespace Lists

variable {α : Type} {before : α → α → Prop} {l : List α} {a b : α × Nat}

theorem zipIdx_increasing (l : List α) : l.zipIdx.Pairwise fun a b => a.2 < b.2 := by
  apply List.pairwise_map.mp
  rw [List.zipIdx_map_snd]
  exact List.pairwise_lt_range' 1

theorem before_of_zipIdx (h : l.Pairwise before) (ha : a ∈ l.zipIdx) (hb : b ∈ l.zipIdx)
    (hl : a.2 < b.2) : before a.1 b.1 := by
  obtain ⟨hi, ha⟩ := List.getElem?_eq_some_iff.mp <| List.mem_zipIdx_iff_getElem?.mp ha
  obtain ⟨hj, hb⟩ := List.getElem?_eq_some_iff.mp <| List.mem_zipIdx_iff_getElem?.mp hb
  exact ha ▸ hb ▸ List.pairwise_iff_getElem.mp h _ _ hi hj hl

-- After a sort, of two elements the smaller one comes first, and of equal ones the one that has come
-- first before. Elements with their places in the list are sorted in the same way, and of these no
-- two are equal.
theorem pairwise_mergeSort (le : α → α → Bool)
    (trans : ∀ a b c, le a b = true → le b c = true → le a c = true)
    (total : ∀ a b, (le a b || le b a) = true) (h : l.Pairwise before) :
    (l.mergeSort le).Pairwise fun a b => le a b = true ∧ (le b a = true → before a b) := by
  rw [← List.mergeSort_zipIdx, List.pairwise_map]
  have hp := l.zipIdx.mergeSort_perm (List.zipIdxLE le)
  have hs :=
    List.pairwise_mergeSort (List.zipIdxLE_trans trans) (List.zipIdxLE_total total) l.zipIdx
  have hn := (hp.pairwise_iff fun h => Ne.symm h).mpr <| (zipIdx_increasing l).imp Nat.ne_of_lt
  refine (hs.and hn).imp_of_mem fun {a b} ha hb ⟨hl, hn⟩ => ?_
  simp only [List.zipIdxLE, Bool.if_false_right, Bool.and_eq_true, decide_eq_true_eq] at hl
  refine ⟨hl.1, fun hle => ?_⟩
  have hl : a.2 ≤ b.2 := by simpa [hle] using hl.2
  exact before_of_zipIdx h (hp.mem_iff.mp ha) (hp.mem_iff.mp hb) (Nat.lt_of_le_of_ne hl hn)

-- Around the first element of a list its sorted list has the elements that come before it and those
-- that do not.
theorem mergeSort_cons_filter {a : α} (le : α → α → Bool)
    (trans : ∀ a b c, le a b = true → le b c = true → le a c = true)
    (total : ∀ a b, (le a b || le b a) = true) (l : List α) :
    (a :: l).mergeSort le =
      (l.mergeSort le).filter (!le a ·) ++ a :: (l.mergeSort le).filter (le a ·) := by
  obtain ⟨l₁, l₂, hl, hl', h₁⟩ := List.mergeSort_cons trans total a l
  have h₂ : ∀ b ∈ l₂, le a b = true := by
    have hs := hl ▸ List.pairwise_mergeSort trans total (a :: l)
    exact (List.pairwise_cons.mp (List.pairwise_append.mp hs).2.1).1
  have hf₁ : (l₁ ++ l₂).filter (!le a ·) = l₁ := by
    rw [List.filter_append, List.filter_eq_self.mpr h₁,
      List.filter_eq_nil_iff.mpr fun b hb => by simp [h₂ b hb], List.append_nil]
  have hf₂ : (l₁ ++ l₂).filter (le a ·) = l₂ := by
    rw [List.filter_append, List.filter_eq_self.mpr h₂,
      List.filter_eq_nil_iff.mpr fun b hb => by simpa using h₁ b hb, List.nil_append]
  rw [hl, hl', hf₁, hf₂]

-- The elements of a part of a list are sorted as they are among all of its elements.
theorem mergeSort_sublist {k l : List α} (le : α → α → Bool)
    (trans : ∀ a b c, le a b = true → le b c = true → le a c = true)
    (total : ∀ a b, (le a b || le b a) = true) (h : k.Sublist l) :
    (k.mergeSort le).Sublist (l.mergeSort le) := by
  induction h
  case slnil                => exact .refl _
  case cons k l a _ hi      =>
    obtain ⟨l₁, l₂, hl, hl', _⟩ := List.mergeSort_cons trans total a l
    rw [hl]
    exact (hl' ▸ hi).trans <| (List.sublist_cons_self a l₂).append_left l₁
  case cons_cons k l a _ hi =>
    rw [mergeSort_cons_filter le trans total, mergeSort_cons_filter le trans total]
    exact (hi.filter _).append <| (hi.filter _).cons_cons a

-- Where nothing that passes a test comes after something that does not, what passes it is a front
-- part of the list.
theorem filter_append_filter (p : α → Bool) (h : l.Pairwise fun a b => p b = true → p a = true) :
    l.filter p ++ l.filter (!p ·) = l := by
  induction l
  case nil         => rfl
  case cons a l hi =>
    have ⟨ha, h⟩ := List.pairwise_cons.mp h
    cases hp : p a
    case true  => simp [hp, hi h]
    case false =>
      have hn : ∀ b ∈ l, p b = false := fun b hb => Bool.eq_false_iff.mpr fun hb' => by
        simp [ha b hb hb'] at hp
      have hf : l.filter p = [] := List.filter_eq_nil_iff.mpr fun b hb => by simp [hn b hb]
      have hf' : l.filter (!p ·) = l := List.filter_eq_self.mpr fun b hb => by simp [hn b hb]
      simp [hp, hf, hf']

theorem nodup_eraseDups [BEq α] [LawfulBEq α] : (l : List α) → l.eraseDups.Nodup
  | []     => List.nodup_nil
  | a :: l => by
    rw [List.eraseDups_cons]
    exact List.nodup_cons.mpr ⟨by simp [List.mem_eraseDups], nodup_eraseDups _⟩
termination_by l => l.length
decreasing_by exact Nat.lt_succ_of_le (List.length_filter_le ..)

theorem eraseDups_concat [BEq α] [LawfulBEq α] (l : List α) (a : α) :
    (l ++ [a]).eraseDups = if l.elem a then l.eraseDups else l.eraseDups ++ [a] := by
  rw [List.eraseDups_append, List.removeAll, List.filter_cons, List.filter_nil]
  cases l.elem a
  case true  => simp
  case false => simp [List.eraseDups_cons]

-- Elements that pass a test are added from left to right unless they are there, so of equal ones the
-- first one counts.
theorem foldl_new [BEq α] [LawfulBEq α] (p : α → Bool) (l : List α) :
    l.foldl (fun k a => if p a && !k.elem a then k ++ [a] else k) [] = (l.filter p).eraseDups := by
  induction l using List.reverseRecOn
  case nil              => rfl
  case append_singleton l a hi =>
    rw [List.foldl_append, List.foldl_cons, List.foldl_nil, hi, List.filter_append]
    cases hp : p a
    case false => simp [hp]
    case true  =>
      rw [List.filter_cons_of_pos hp, List.filter_nil, eraseDups_concat]
      by_cases ha : a ∈ l <;> simp [hp, ha, List.mem_eraseDups]

theorem length_eraseDups_le [BEq α] [LawfulBEq α] (l : List α) : l.eraseDups.length ≤ l.length :=
  (List.subperm_of_subset (nodup_eraseDups l) fun _ h => List.mem_eraseDups.mp h).length_le

theorem ncard_of_nodup (h : l.Nodup) : {a | a ∈ l}.ncard = l.length := by
  classical
  rw [← List.toFinset_card_of_nodup h, ← Set.ncard_coe_finset, List.coe_toFinset]

-- The last of some elements, the first of which stands behind another one.
theorem getLast?_cons_or (a : α) (b : Option α) (l : List α) :
    (a :: l).getLast?.or b = l.getLast?.or (some a) := by
  cases h : l.getLast? <;> simp [List.getLast?_cons, h]

end Lists

end LogOrigin
