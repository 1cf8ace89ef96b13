import LogOrigin.Proofs.Files.Path
import LogOrigin.Proofs.Lists
import LogOrigin.Search.FileName
import Mathlib.Data.List.TakeWhile

-- The stems of a record: words of letters and digits, so that nothing in them has a meaning of its
-- own in a glob.

namespace LogOrigin

open Text

namespace FileName

variable {s t n : Text} {c : Char} {l : List Text} {least : Nat} {record : Record}

-- Words of letters and digits, with single underscores between them.
def IsStem (t : Text) : Prop :=
  ∃ words, words ≠ [] ∧ (∀ w ∈ words, w ≠ [] ∧ ∀ c ∈ w, isAlnum c = true) ∧
    t = joinWith ['_'] words

theorem IsStem.ne_nil (h : IsStem t) : t ≠ [] := by
  obtain ⟨words, hn, hw, rfl⟩ := h
  obtain ⟨w, hm⟩ := List.exists_mem_of_ne_nil words hn
  obtain ⟨c, hc⟩ := List.exists_mem_of_ne_nil w (hw w hm).1
  exact List.ne_nil_of_mem <| mem_joinWith hm hc

theorem IsStem.forall_mem (h : IsStem t) : ∀ c ∈ t, c = '_' ∨ isAlnum c = true := by
  obtain ⟨words, _, hw, rfl⟩ := h
  intro c hc
  rcases of_mem_joinWith hc with hc | ⟨w, hm, hc⟩
  case inl => exact .inl <| List.mem_singleton.mp hc
  case inr => exact .inr <| (hw w hm).2 c hc

-- The words of a name, which are those of its normal form.
def wordsOf (name : Text) : List Text :=
  (splitOn '_' ((lowercase name).map fun c => if isAlnum c then c else '_')).filter (!·.isEmpty)

theorem normalize_eq (name : Text) : normalize name = joinWith ['_'] (wordsOf name) :=
  rfl

theorem of_mem_wordsOf {w : Text} (h : w ∈ wordsOf n) : w ≠ [] ∧ ∀ c ∈ w, isAlnum c = true := by
  obtain ⟨hm, hw⟩ := List.mem_filter.mp h
  refine ⟨by simpa using hw, fun c hc => ?_⟩
  have hs := notMem_of_mem_splitOn hm
  have hc' : c ∈ joinWith ['_'] _ := mem_joinWith hm hc
  rw [joinWith_splitOn] at hc'
  obtain ⟨d, _, rfl⟩ := List.mem_map.mp hc'
  split
  case isTrue hd  => exact hd
  case isFalse hd =>
    rw [if_neg hd] at hc
    exact absurd hc hs

theorem lastPart_of_tail {sep : Char} (h : IsTail sep n t) (hn : sep ∉ n) :
    lastPart (· == sep) t = n := by
  have all : ∀ c ∈ n.reverse, (!(c == sep)) = true := by
    intro c hc
    have hc : c ≠ sep := ne_of_mem_of_not_mem (List.mem_reverse.mp hc) hn
    simpa using hc
  cases h
  case whole    => rw [lastPart, List.takeWhile_eq_self_iff.mpr all, List.reverse_reverse]
  case behind f =>
    rw [lastPart, List.reverse_append, List.reverse_cons, List.append_assoc,
      List.takeWhile_append_of_pos all]
    simp

-- The names that stems are made of: the whole name, its last segment and its last word.
def candidates (source : Text) : List Text :=
  [normalize source, normalize (lastPart isSeparator source), (wordsOf source).getLast?.getD []]

theorem lastPart_normalize (s : Text) :
    lastPart (· == '_') (normalize s) = (wordsOf s).getLast?.getD [] := by
  cases hl : (wordsOf s).getLast?
  case none   =>
    rw [normalize_eq, List.getLast?_eq_none_iff.mp hl]
    rfl
  case some w =>
    refine lastPart_of_tail (isTail_joinWith hl) fun hm => ?_
    have := (of_mem_wordsOf <| List.mem_of_getLast? hl).2 '_' hm
    revert this
    decide

theorem foldl_addStem (least : Nat) (l : List Text) :
    l.foldl (addStem least) [] = (l.filter (max least 1 ≤ ·.length)).eraseDups :=
  Lists.foldl_new _ l

theorem stems_eq (least : Nat) (record : Record) : stems least record =
    match source? record with
    | none   => []
    | some s => ((candidates s).filter (max least 1 ≤ ·.length)).eraseDups := by
  unfold stems
  split
  case h_1 s hs => simp only [hs, stemsOf, lastPart_normalize, foldl_addStem, candidates]
  case h_2 hs   => simp only [hs]

theorem isStem_normalize (h : normalize n ≠ []) : IsStem (normalize n) := by
  refine ⟨wordsOf n, ?_, fun w hw => of_mem_wordsOf hw, rfl⟩
  intro hn
  exact h <| by rw [normalize_eq, hn]; rfl

theorem isStem_of_mem_candidates (h : t ∈ candidates s) (ht : t ≠ []) : IsStem t := by
  simp only [candidates, List.mem_cons, List.not_mem_nil, or_false] at h
  rcases h with rfl | rfl | rfl
  case inl     => exact isStem_normalize ht
  case inr.inl => exact isStem_normalize ht
  case inr.inr =>
    cases hl : (wordsOf s).getLast?
    case none   => simp [hl] at ht
    case some w =>
      have hw := of_mem_wordsOf <| List.mem_of_getLast? hl
      exact ⟨[w], List.cons_ne_nil _ _, fun v hv => List.mem_singleton.mp hv ▸ hw, rfl⟩

-- What all stems of a record are.
structure AreStems (least : Nat) (l : List Text) : Prop where
  distinct : l.Nodup
  stem     : ∀ t ∈ l, IsStem t
  long     : ∀ t ∈ l, least ≤ t.length

theorem areStems (least : Nat) (record : Record) : AreStems least (stems least record) := by
  rw [stems_eq]
  split
  case h_1 => exact ⟨List.nodup_nil, nofun, nofun⟩
  case h_2 s _ =>
    have mem {t} (h : t ∈ ((candidates s).filter (max least 1 ≤ ·.length)).eraseDups) :
        t ∈ candidates s ∧ max least 1 ≤ t.length := by
      simpa using List.mem_filter.mp <| List.mem_eraseDups.mp h
    refine ⟨Lists.nodup_eraseDups _, fun t ht => ?_, fun t ht => ?_⟩
    · refine isStem_of_mem_candidates (mem ht).1 <| List.ne_nil_of_length_pos ?_
      exact Nat.lt_of_lt_of_le Nat.zero_lt_one <| Nat.le_trans (Nat.le_max_right ..) (mem ht).2
    · exact Nat.le_trans (Nat.le_max_left ..) (mem ht).2

end FileName

end LogOrigin
