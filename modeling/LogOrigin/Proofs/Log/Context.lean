import LogOrigin.Log.Context
import LogOrigin.Proofs.Lists
import Mathlib.Algebra.Order.Round
import Mathlib.Data.Rat.Floor
import Mathlib.Tactic.Linarith

-- The lines that are shown together with a record: all lines near it, and of the others those that
-- have the most words in common with it.

namespace LogOrigin

open Text

namespace Context

variable {lines : List Text} {line : Text} {size current cap i j : Nat}

-- The words that two lines of a batch have in common, case aside.
def commonWords (lines : List Text) (i j : Nat) : Set Text :=
  {w | (∃ l ∈ lines[i]?, w ∈ (words l).map lowercase) ∧
    ∃ l ∈ lines[j]?, w ∈ (words l).map lowercase}

-- The number of different words that a line has in common with the current one.
noncomputable def likeness (lines : List Text) (current i : Nat) : Nat :=
  (commonWords lines current i).ncard

-- How many lines before the current one, and how many after it, are near it.
structure Reach where
  before : Nat
  after  : Nat

-- Three tenths of the lines come from before the current one.
structure Reach.Shares (r : Reach) (cap : Nat) : Prop where
  before : (r.before : Int) = round ((3 / 10 : Rat) * cap)
  total  : r.before + r.after = cap

-- The lines of a batch that are near the current one.
def Reach.near (r : Reach) (size current : Nat) : Set Nat :=
  {i | i < size ∧ i ≠ current ∧ current ≤ i + r.before ∧ i ≤ current + r.after}

def Reach.far (r : Reach) (size current : Nat) : Set Nat :=
  {i | i < size ∧ i ≠ current ∧ ¬(current ≤ i + r.before ∧ i ≤ current + r.after)}

-- A line has more in common with the current one than another one, or as much and it comes first.
def Preferred (lines : List Text) (current i j : Nat) : Prop :=
  likeness lines current j < likeness lines current i ∨
    likeness lines current j = likeness lines current i ∧ i < j

-- What is selected: all lines near the current one, and as many of the others that have words in
-- common with it as there is room for, the best ones.
structure Selection (lines : List Text) (current cap : Nat) (r : Reach) (picked : List Nat) :
    Prop where
  increasing : picked.Pairwise (· < ·)
  inRange    : ∀ i ∈ picked, i < lines.length ∧ i ≠ current
  length_le  : picked.length ≤ cap
  near       : ∀ i ∈ r.near lines.length current, i ∈ picked
  count      : {i | i ∈ picked ∧ i ∈ r.far lines.length current}.ncard =
    min (cap - (r.near lines.length current).ncard)
      {i | i ∈ r.far lines.length current ∧ 0 < likeness lines current i}.ncard
  best       : ∀ i ∈ picked, i ∈ r.far lines.length current →
    ∀ j ∈ r.far lines.length current, j ∉ picked → Preferred lines current i j

theorem shared_eq (hc : lines[current]? = some line) {l : Text} (hi : lines[i]? = some l) :
    shared (wordSet line) l = likeness lines current i := by
  have hn : ((wordSet line).filter (wordSet l).contains).Nodup :=
    (Lists.nodup_eraseDups _).filter _
  rw [shared, List.countP_eq_length_filter, ← Lists.ncard_of_nodup hn, likeness]
  congr 1
  ext w
  simp [commonWords, hc, hi, wordSet, List.mem_eraseDups]

theorem beforeCount_eq (cap : Nat) : (beforeCount cap : Int) = round ((3 / 10 : Rat) * cap) := by
  rw [round_eq, eq_comm, Int.floor_eq_iff]
  have hl : 10 * beforeCount cap ≤ 3 * cap + 5 := by
    unfold beforeCount
    omega
  have hu : 3 * cap + 5 < 10 * beforeCount cap + 10 := by
    unfold beforeCount
    omega
  have hl : (10 * beforeCount cap : Rat) ≤ 3 * cap + 5 := by exact_mod_cast hl
  have hu : (3 * cap + 5 : Rat) < 10 * beforeCount cap + 10 := by exact_mod_cast hu
  constructor
  · push_cast
    linarith
  · push_cast
    linarith

-- The reach of a selection of so many lines.
def reach (cap : Nat) : Reach :=
  ⟨beforeCount cap, cap - beforeCount cap⟩

theorem shares_reach (cap : Nat) : (reach cap).Shares cap where
  before := beforeCount_eq cap
  total  := by
    simp only [reach, beforeCount]
    omega

section Window

theorem window_eq (size current cap : Nat) : window size current cap =
    (List.range' (current - beforeCount cap)
      (min (current + (cap - beforeCount cap)) (size - 1) + 1 - (current - beforeCount cap))).filter
        (· != current) := by
  have hc : cap - min (beforeCount cap) cap = cap - beforeCount cap := by omega
  simp [window, hc, List.range_eq_range', List.drop_range']

theorem window_increasing (size current cap : Nat) :
    (window size current cap).Pairwise (· < ·) := by
  rw [window_eq]
  exact (List.pairwise_lt_range' 1).sublist List.filter_sublist

theorem mem_window (hc : current < size) :
    i ∈ window size current cap ↔ i ∈ (reach cap).near size current := by
  simp only [window_eq, reach, Reach.near, List.mem_filter, List.mem_range'_1, bne_iff_ne,
    Set.mem_ofPred_eq]
  omega

-- The current line itself is left out.
theorem length_window_le (hc : current < size) (cap : Nat) :
    (window size current cap).length ≤ cap := by
  have hb : beforeCount cap ≤ cap := by
    unfold beforeCount
    omega
  rw [window_eq]
  refine Nat.le_of_lt_succ <| Nat.lt_of_lt_of_le
    (List.length_filter_lt_length_iff_exists.mpr ⟨current, ?_, by simp⟩) ?_
  case refine_1 =>
    rw [List.mem_range'_1]
    omega
  case refine_2 =>
    rw [List.length_range']
    omega

end Window

section Others

variable {ws : List Text} {taken : List Nat} {l : Text} {n : Nat}

-- What a line has in common with the current one, if it counts.
def score? (ws : List Text) (current : Nat) (taken : List Nat) : Text × Nat → Option (Nat × Nat)
  | (line, i) =>
    if i = current || taken.contains i then none
    else if shared ws line = 0 then none else some (i, shared ws line)

def scored (lines : List Text) (ws : List Text) (current : Nat) (taken : List Nat) :
    List (Nat × Nat) :=
  lines.zipIdx.filterMap (score? ws current taken)

theorem others_eq (lines : List Text) (ws : List Text) (current : Nat) (taken : List Nat) :
    others lines ws current taken =
      ((scored lines ws current taken).mergeSort fun a b => b.2 ≤ a.2).map (·.1) :=
  rfl

theorem score?_eq_some_iff : score? ws current taken (l, i) = some (j, n) ↔
    i = j ∧ j ≠ current ∧ j ∉ taken ∧ 0 < n ∧ n = shared ws l := by
  unfold score?
  grind

theorem mem_scored : (i, n) ∈ scored lines ws current taken ↔
    i ≠ current ∧ i ∉ taken ∧ 0 < n ∧ ∃ l, lines[i]? = some l ∧ n = shared ws l := by
  simp only [scored, List.mem_filterMap, Prod.exists, List.mem_zipIdx_iff_getElem?,
    score?_eq_some_iff]
  grind

theorem scored_increasing (lines : List Text) (ws : List Text) (current : Nat) (taken : List Nat) :
    (scored lines ws current taken).Pairwise fun a b => a.1 < b.1 := by
  rw [scored, List.pairwise_filterMap]
  refine (Lists.zipIdx_increasing lines).imp fun {a b} hl x hx y hy => ?_
  exact (score?_eq_some_iff.mp hx).1 ▸ (score?_eq_some_iff.mp hy).1 ▸ hl

theorem mem_others (hc : lines[current]? = some line) :
    i ∈ others lines (wordSet line) current taken ↔
      i < lines.length ∧ i ≠ current ∧ i ∉ taken ∧ 0 < likeness lines current i := by
  simp only [others_eq, List.mem_map, List.mem_mergeSort, Prod.exists, exists_and_right,
    exists_eq_right, mem_scored]
  constructor
  case mp  =>
    rintro ⟨n, hi, ht, hn, l, hl, rfl⟩
    exact ⟨(List.getElem?_eq_some_iff.mp hl).1, hi, ht, shared_eq hc hl ▸ hn⟩
  case mpr =>
    rintro ⟨hl, hi, ht, hn⟩
    have hl := List.getElem?_eq_getElem hl
    exact ⟨_, hi, ht, shared_eq hc hl ▸ hn, _, hl, rfl⟩

-- The others are in the order in which they are preferred.
theorem preferred_others (hc : lines[current]? = some line) (taken : List Nat) :
    (others lines (wordSet line) current taken).Pairwise (Preferred lines current) := by
  have hs := Lists.pairwise_mergeSort (fun a b => b.2 ≤ a.2) (by grind) (by grind) <|
    scored_increasing lines (wordSet line) current taken
  have hm {e} (he : e ∈ (scored lines (wordSet line) current taken).mergeSort
      fun a b => b.2 ≤ a.2) : e.2 = likeness lines current e.1 := by
    obtain ⟨_, _, _, l, hl, hn⟩ := mem_scored.mp <| List.mem_mergeSort.mp he
    exact hn.trans (shared_eq hc hl)
  rw [others_eq, List.pairwise_map]
  refine hs.imp_of_mem fun {a b} ha hb ⟨hl, hi⟩ => ?_
  simp only [decide_eq_true_eq] at hl hi
  rw [hm ha, hm hb] at hl hi
  exact (Nat.lt_or_eq_of_le hl).imp_right fun he => ⟨he, hi (Nat.le_of_eq he.symm)⟩

end Others

section Selection

variable {r : Reach}

theorem Reach.mem_far_iff :
    i ∈ r.far size current ↔ i < size ∧ i ≠ current ∧ i ∉ r.near size current := by
  simp only [far, near, Set.mem_ofPred_eq]
  grind

-- The lines that are selected besides the near ones.
def best (lines : List Text) (line : Text) (current cap : Nat) : List Nat :=
  let taken := window lines.length current cap
  (others lines (wordSet line) current taken).take (cap - taken.length)

theorem select_eq (hc : lines[current]? = some line) (h : 0 < cap) :
    select lines current cap =
      (window lines.length current cap ++ best lines line current cap).mergeSort (· ≤ ·) := by
  simp only [select, hc, Nat.ne_of_gt h, if_false, best]

theorem mem_others_iff (hc : lines[current]? = some line) :
    i ∈ others lines (wordSet line) current (window lines.length current cap) ↔
      i ∈ (reach cap).far lines.length current ∧ 0 < likeness lines current i := by
  have hl := (List.getElem?_eq_some_iff.mp hc).1
  rw [mem_others hc, mem_window hl, Reach.mem_far_iff, and_assoc, and_assoc]

theorem far_of_mem_best (hc : lines[current]? = some line)
    (hi : i ∈ best lines line current cap) : i ∈ (reach cap).far lines.length current :=
  ((mem_others_iff hc).mp <| List.mem_of_mem_take hi).1

theorem nodup_others (hc : lines[current]? = some line) (taken : List Nat) :
    (others lines (wordSet line) current taken).Nodup :=
  (preferred_others hc taken).imp fun {i j} h => by
    rintro rfl
    rcases h with h | ⟨_, h⟩ <;> exact Nat.lt_irrefl _ h

theorem nodup_append_best (hc : lines[current]? = some line) (cap : Nat) :
    (window lines.length current cap ++ best lines line current cap).Nodup := by
  have hl := (List.getElem?_eq_some_iff.mp hc).1
  rw [List.nodup_append]
  refine ⟨(window_increasing ..).imp Nat.ne_of_lt, (nodup_others hc _).sublist (List.take_sublist ..),
    fun i hi j hj => ?_⟩
  rintro rfl
  exact (Reach.mem_far_iff.mp <| far_of_mem_best hc hj).2.2 <| (mem_window hl).mp hi

theorem mem_select_iff (hc : lines[current]? = some line) (h : 0 < cap) :
    i ∈ select lines current cap ↔
      i ∈ (reach cap).near lines.length current ∨ i ∈ best lines line current cap := by
  have hl := (List.getElem?_eq_some_iff.mp hc).1
  rw [select_eq hc h, List.mem_mergeSort, List.mem_append, mem_window hl]

theorem select_increasing (hc : lines[current]? = some line) (h : 0 < cap) :
    (select lines current cap).Pairwise (· < ·) := by
  rw [select_eq hc h]
  have hs := Lists.pairwise_mergeSort (fun i j => i ≤ j) (by grind) (by grind) <|
    nodup_append_best hc cap
  refine hs.imp fun {i j} ⟨hl, hn⟩ => ?_
  simp only [decide_eq_true_eq] at hl hn
  exact Nat.lt_of_le_of_ne hl fun he => hn (Nat.le_of_eq he.symm) he

-- A line that is not among the best ones is less like the current one than each of them.
theorem preferred_best (hc : lines[current]? = some line) (hi : i ∈ best lines line current cap)
    (hj : j ∈ (reach cap).far lines.length current) (hn : j ∉ best lines line current cap) :
    Preferred lines current i j := by
  by_cases hl : 0 < likeness lines current j
  case pos =>
    have hj := (mem_others_iff hc).mpr ⟨hj, hl⟩
    have hp := preferred_others hc (window lines.length current cap)
    rw [← List.take_append_drop (cap - (window lines.length current cap).length) (others ..)] at hj hp
    exact (List.pairwise_append.mp hp).2.2 i hi j <| (List.mem_append.mp hj).resolve_left hn
  case neg =>
    have := ((mem_others_iff hc).mp <| List.mem_of_mem_take hi).2
    exact .inl (by omega)

theorem count_best (hc : lines[current]? = some line) :
    (best lines line current cap).length =
      min (cap - ((reach cap).near lines.length current).ncard)
        {i | i ∈ (reach cap).far lines.length current ∧ 0 < likeness lines current i}.ncard := by
  have hl := (List.getElem?_eq_some_iff.mp hc).1
  have hw : (reach cap).near lines.length current = {i | i ∈ window lines.length current cap} :=
    Set.ext fun _ => (mem_window hl).symm
  have ho : {i | i ∈ (reach cap).far lines.length current ∧ 0 < likeness lines current i} =
      {i | i ∈ others lines (wordSet line) current (window lines.length current cap)} :=
    Set.ext fun _ => (mem_others_iff hc).symm
  rw [hw, ho, Lists.ncard_of_nodup ((window_increasing ..).imp Nat.ne_of_lt),
    Lists.ncard_of_nodup (nodup_others hc _)]
  exact List.length_take

theorem selection_select (hc : lines[current]? = some line) (h : 0 < cap) :
    Selection lines current cap (reach cap) (select lines current cap) where
  increasing := select_increasing hc h
  near i hi  := (mem_select_iff hc h).mpr (.inl hi)
  inRange i hi := by
    rcases (mem_select_iff hc h).mp hi with hi | hi
    case inl => exact ⟨hi.1, hi.2.1⟩
    case inr =>
      have hf := far_of_mem_best hc hi
      exact ⟨hf.1, hf.2.1⟩
  length_le  := by
    have hl := length_window_le (List.getElem?_eq_some_iff.mp hc).1 cap
    rw [select_eq hc h, List.length_mergeSort, List.length_append, best, List.length_take]
    omega
  count      := by
    have hb : {i | i ∈ select lines current cap ∧ i ∈ (reach cap).far lines.length current} =
        {i | i ∈ best lines line current cap} := by
      ext i
      simp only [Set.mem_ofPred_eq, mem_select_iff hc h]
      constructor
      case mp  => exact fun ⟨hi, hf⟩ => hi.resolve_left (Reach.mem_far_iff.mp hf).2.2
      case mpr => exact fun hi => ⟨.inr hi, far_of_mem_best hc hi⟩
    rw [hb, Lists.ncard_of_nodup (List.nodup_append.mp <| nodup_append_best hc cap).2.1, count_best hc]
  best i hi hf j hj hn := by
    have hi := ((mem_select_iff hc h).mp hi).resolve_left (Reach.mem_far_iff.mp hf).2.2
    exact preferred_best hc hi hj fun hb => hn <| (mem_select_iff hc h).mpr (.inr hb)

end Selection

-- Without room for a line, and with no current line, nothing is selected. Otherwise everything near
-- the current line is, and the room that is left goes to the lines that have most words in common
-- with it, the first of them if there are several.
theorem select_best (lines : List Text) (current cap : Nat) :
    (∃ r : Reach, r.Shares cap ∧ (0 < cap → current < lines.length →
      Selection lines current cap r (select lines current cap))) ∧
    (cap = 0 ∨ lines.length ≤ current → select lines current cap = []) := by
  refine ⟨⟨reach cap, shares_reach cap, fun h hl => ?_⟩, fun h => ?_⟩
  case refine_1 => exact selection_select (List.getElem?_eq_getElem hl) h
  case refine_2 =>
    unfold select
    cases hc : lines[current]?
    case none   => rfl
    case some l =>
      have hl := (List.getElem?_eq_some_iff.mp hc).1
      exact if_pos <| h.resolve_right (Nat.not_le_of_lt hl)

-- Only the line before the current one is near it. Of the others two lines have both words in common
-- with it, and the line with one of them is left out.
theorem select_best_clipped :
    let lines := ["disk full", "x", "Disk full", "disk", "y", "disk full"].map String.toList
    0 < 3 ∧ 5 < lines.length ∧ (∃ r : Reach, r.Shares 3 ∧ Selection lines 5 3 r [0, 2, 4]) ∧
      lines.length ≤ 6 ∧ select lines 6 3 = [] := by
  intro lines
  have hc : lines[5]? = some "disk full".toList := rfl
  have hw : window lines.length 5 3 = [4] := by decide +kernel
  have hb : scored lines (wordSet "disk full".toList) 5 [4] = [(0, 2), (2, 2), (3, 1)] := by
    decide +kernel
  have hs : select lines 5 3 = [0, 2, 4] := by
    rw [select_eq hc (by decide), best, hw, others_eq, hb]
    simp [List.mergeSort, List.MergeSort.Internal.splitInTwo]
  obtain ⟨r, hr, h⟩ := (select_best lines 5 3).1
  have hn := (select_best lines 6 3).2
  exact ⟨by decide, by decide, ⟨r, hr, hs ▸ h (by decide) (by decide)⟩, by decide,
    hn (.inr (by decide))⟩

end Context

end LogOrigin
