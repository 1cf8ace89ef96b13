import LogOrigin.Proofs.Search.Scan

-- The ranks of candidates depend neither on the order in which the candidates come nor on what has
-- been ranked before they are put together.

namespace LogOrigin

namespace Score

variable {l l' : List Candidate}

-- No line of a file stands in the list twice.
def Apart (l : List Candidate) : Prop :=
  l.Pairwise fun a b => (a.fileIndex, a.line) ≠ (b.fileIndex, b.line)

instance (l : List Candidate) : Decidable (Apart l) :=
  inferInstanceAs (Decidable (List.Pairwise _ l))

theorem Apart.perm (h : Apart l) (hp : l.Perm l') : Apart l' :=
  (hp.pairwise_iff fun h => h.symm).mp h

theorem apart_of_earlier (h : l.Pairwise Earlier) : Apart l := by
  refine h.imp fun {a b} h he => ?_
  simp only [Prod.mk.injEq] at he
  unfold Earlier at h
  omega

theorem perm_rank (l : List Candidate) : (rank l).Perm l :=
  List.mergeSort_perm l before

-- A scan comes to one of two different lines first.
theorem Apart.precedes_rank (h : Apart l) : (rank l).Pairwise Precedes := by
  refine pairwise_rank <| h.imp fun {a b} h => ?_
  simp only [ne_eq, Prod.mk.injEq] at h
  unfold Earlier
  omega

theorem Apart.rank_eq (h : Apart l) (hp : l.Perm l') : rank l = rank l' :=
  eq_of_perm ((perm_rank l).trans <| hp.trans (perm_rank l').symm) h.precedes_rank
    (h.perm hp).precedes_rank

theorem perm_flatten_map_rank (chunks : List (List Candidate)) :
    (chunks.map rank).flatten.Perm chunks.flatten := by
  induction chunks
  case nil              => exact .refl _
  case cons l chunks hi => exact (perm_rank l).append hi

theorem Apart.rank_chunks {chunks order : List (List Candidate)} (h : Apart chunks.flatten)
    (hp : order.Perm chunks) : rank (order.map rank).flatten = rank chunks.flatten :=
  (h.rank_eq <| hp.flatten.symm.trans (perm_flatten_map_rank order).symm).symm

end Score

namespace Resolver

open Score

-- Two lists of the same candidates are ranked alike, and so are the chunks of a list that have been
-- ranked by themselves, in whatever order they are put together. The files of a scan may be read in
-- any order.
theorem ranked_in_any_order :
    (∀ l l' : List Candidate, l.Perm l' → Apart l → rank l = rank l') ∧
    (∀ chunks order : List (List Candidate), order.Perm chunks → Apart chunks.flatten →
      rank (order.map rank).flatten = rank chunks.flatten) ∧
    (∀ fs s needle files (order : List (FilePath × Nat)), order.Perm files.zipIdx →
      rank (order.flatMap fun e => hits fs s needle e.2 e.1) = scan fs s needle files ∧
      rank (order.flatMap fun e => rank (hits fs s needle e.2 e.1)) = scan fs s needle files) := by
  refine ⟨fun l l' hp ha => ha.rank_eq hp, fun chunks order hp ha => ha.rank_chunks hp, ?_⟩
  intro fs s needle files order hp
  let found (e : FilePath × Nat) : List Candidate := hits fs s needle e.2 e.1
  have ha : Apart (files.zipIdx.flatMap found) := apart_of_earlier (pairwise_flatMap_hits ..)
  have hr : rank (order.flatMap (rank ∘ found)) = rank (files.zipIdx.flatMap found) := by
    rw [List.flatMap, ← List.map_map]
    exact ha.rank_chunks (hp.map found)
  exact ⟨(ha.rank_eq (hp.flatMap_right found).symm).symm, hr⟩

-- Three lines of two files with equal scores, one of which a better line comes before. The second
-- file is read first.
theorem ranked_in_any_order_tied :
    let file (c : Char) : FilePath := ⟨[c]⟩
    let first : List Candidate := [⟨0, file 'a', 1, 10⟩, ⟨0, file 'a', 2, 25⟩, ⟨0, file 'a', 5, 10⟩]
    let second : List Candidate := [⟨1, file 'b', 0, 10⟩]
    let fs : Files := ⟨.dir [(['a'], .file "ab".toUTF8), (['b'], .file "x\nab".toUTF8)], []⟩
    let s := Settings.default.search
    Apart (first ++ second) ∧ (second ++ first).Perm (first ++ second) ∧
    rank (second ++ first) = rank (first ++ second) ∧
    rank (rank second ++ rank first) = rank (first ++ second) ∧
    rank (hits fs s ['a', 'b'] 1 (file 'b') ++ hits fs s ['a', 'b'] 0 (file 'a')) =
      scan fs s ['a', 'b'] [file 'a', file 'b'] := by
  intro file first second fs s
  have ⟨whole, chunks, files⟩ := ranked_in_any_order
  have ha : Apart (first ++ second) := by decide
  have hp : (second ++ first).Perm (first ++ second) := List.perm_append_comm
  have hs : [second, first].Perm [first, second] := .swap ..
  have hc := chunks [first, second] [second, first] hs (by simpa using ha)
  have hf := (files fs s ['a', 'b'] [file 'a', file 'b'] [(file 'b', 1), (file 'a', 0)] (.swap ..)).1
  refine ⟨ha, hp, whole _ _ hp (ha.perm hp.symm), ?_, ?_⟩
  · simpa using hc
  · simpa using hf

end Resolver

end LogOrigin
