import LogOrigin.Log.Store
import LogOrigin.Proofs.Lists
import LogOrigin.Proofs.Text.Bytes
import LogOrigin.Proofs.Text.KeyMap
import Mathlib.Data.List.Induction

-- The views of a store: its records by their keys, by their timestamps, and those that a test picks
-- out. A view has the numbers of records, and none of them twice.

namespace LogOrigin

open Text

namespace Level

variable {l m : Level} {levels : List Level}

theorem max_eq (l m : Level) : l.max m = l ∨ l.max m = m := by
  unfold max
  split <;> simp

theorem rank_le_max (l m : Level) : l.rank ≤ (l.max m).rank ∧ m.rank ≤ (l.max m).rank := by
  unfold max
  split <;> omega

theorem foldl_max_mem (l : Level) (levels : List Level) :
    levels.foldl max l = l ∨ levels.foldl max l ∈ levels := by
  induction levels generalizing l
  case nil              => exact .inl rfl
  case cons m levels hi =>
    rw [List.foldl_cons, List.mem_cons]
    rcases hi (l.max m) with h | h
    case inl => exact (max_eq l m).imp h.trans fun hm => .inl (h.trans hm)
    case inr => exact .inr (.inr h)

theorem rank_le_foldl_max (l : Level) (levels : List Level) :
    ∀ m ∈ l :: levels, m.rank ≤ (levels.foldl max l).rank := by
  induction levels generalizing l
  case nil              => exact List.forall_mem_singleton.mpr (Nat.le_refl _)
  case cons m levels hi =>
    have ⟨hm, hl⟩ := List.forall_mem_cons.mp <| hi (l.max m)
    have ⟨h₁, h₂⟩ := rank_le_max l m
    exact List.forall_mem_cons.mpr
      ⟨Nat.le_trans h₁ hm, List.forall_mem_cons.mpr ⟨Nat.le_trans h₂ hm, hl⟩⟩

-- No level is below that which stands for no levels at all.
theorem foldl_max_trace_mem (h : levels ≠ []) : levels.foldl max .trace ∈ levels := by
  rcases foldl_max_mem .trace levels with he | hm
  case inl =>
    obtain ⟨m, hm⟩ := List.exists_mem_of_ne_nil _ h
    have hl := rank_le_foldl_max .trace levels m (List.mem_cons_of_mem _ hm)
    have ht : m = levels.foldl max .trace := by
      rw [he] at hl ⊢
      exact rank_injective (Nat.eq_zero_of_le_zero hl)
    exact ht ▸ hm
  case inr => exact hm

end Level

namespace RecordStore

variable {s : RecordStore} {i j : Nat} {k : Text} {v : List (Nat × Record)}

-- A group has the records with its key, in their order, and the highest of their levels.
structure IsGroup (s : RecordStore) (g : RecordGroup) : Prop where
  increasing : g.records.Pairwise (· < ·)
  mem_iff    : ∀ i, i ∈ g.records ↔ ∃ r, s.records[i]? = some r ∧ r.groupKey = g.key
  attained   : ∃ i ∈ g.records, ∃ r, s.records[i]? = some r ∧ r.level = g.maxLevel
  highest    : ∀ i ∈ g.records, ∀ r, s.records[i]? = some r → r.level.rank ≤ g.maxLevel.rank

-- Groups in the order of their keys such that every record is in one of them.
structure Partition (s : RecordStore) (groups : List RecordGroup) : Prop where
  isGroup    : ∀ g ∈ groups, s.IsGroup g
  increasing : groups.Pairwise fun g g' => bytes g.key < bytes g'.key
  perm       : (groups.flatMap (·.records)).Perm (List.range s.size)
  unique     : ∀ i < s.size, ∃! g, g ∈ groups ∧ i ∈ g.records

-- A record has an earlier timestamp than another one, or the same one and a smaller number.
def Precedes (s : RecordStore) (i j : Nat) : Prop :=
  ∃ r r', s.records[i]? = some r ∧ s.records[j]? = some r' ∧
    (bytes r.timestamp < bytes r'.timestamp ∨ r.timestamp = r'.timestamp ∧ i < j)

-- All records by their timestamps, those with the same one in their order.
structure Chronological (s : RecordStore) (ids : List Nat) : Prop where
  perm    : ids.Perm (List.range s.size)
  sorted  : ids.Pairwise s.Precedes
  undated : ∃ dated, ids = s.idsWhere (·.timestamp = []) ++ dated ∧
    ∀ i ∈ dated, ∃ r, s.records[i]? = some r ∧ r.timestamp ≠ []

-- The records that pass a test, in their order.
structure Selects (s : RecordStore) (p : Record → Prop) (ids : List Nat) : Prop where
  increasing : ids.Pairwise (· < ·)
  mem_iff    : ∀ i, i ∈ ids ↔ ∃ r, s.records[i]? = some r ∧ p r

theorem mem_entries_iff {e : Nat × Record} : e ∈ s.entries ↔ s.records[e.1]? = some e.2 := by
  simp only [entries, List.mem_map, Prod.exists, List.mem_zipIdx_iff_getElem?]
  constructor
  case mp  =>
    rintro ⟨r, i, h, rfl⟩
    exact h
  case mpr => exact fun h => ⟨e.2, e.1, h, rfl⟩

theorem map_fst_entries (s : RecordStore) : s.entries.map Prod.fst = List.range s.size := by
  rw [entries, List.map_map, size, List.range_eq_range', ← List.zipIdx_map_snd]
  rfl

theorem entries_increasing (s : RecordStore) : s.entries.Pairwise fun a b => a.1 < b.1 := by
  rw [← List.pairwise_map, map_fst_entries]
  exact List.pairwise_lt_range

-- Some of the entries of a store, in their order.
theorem selects_filter (s : RecordStore) (p : Record → Prop) [DecidablePred p] :
    s.Selects p ((s.entries.filter (p ·.2)).map Prod.fst) where
  increasing := List.pairwise_map.mpr <| s.entries_increasing.sublist List.filter_sublist
  mem_iff i  := by simp [mem_entries_iff]

section Groups

-- In the map of the groups a key has the entries with this key.
theorem getD_get?_foldl (l : List (Nat × Record)) (k : Text) :
    (KeyMap.get? k (l.foldl addToGroup [])).getD [] = l.filter (·.2.groupKey = k) := by
  induction l using List.reverseRecOn
  case nil              => rfl
  case append_singleton l e hi =>
    rw [List.foldl_append, List.foldl_cons, List.foldl_nil, addToGroup, KeyMap.modify,
      List.filter_append]
    by_cases hk : k = e.2.groupKey
    case pos =>
      subst hk
      simp [KeyMap.get?_insert_self, hi]
    case neg => simp [KeyMap.get?_insert_ne hk, hi, Ne.symm hk]

theorem sorted_foldl (l : List (Nat × Record)) : KeyMap.Sorted (l.foldl addToGroup []) := by
  induction l using List.reverseRecOn
  case nil                     => exact .nil
  case append_singleton l e hi =>
    rw [List.foldl_append]
    exact hi.insert _ _

theorem ne_nil_of_mem_foldl {l : List (Nat × Record)} (h : (k, v) ∈ l.foldl addToGroup []) :
    v ≠ [] := by
  induction l using List.reverseRecOn
  case nil                     => cases h
  case append_singleton l e hi =>
    rw [List.foldl_append] at h
    rcases KeyMap.mem_insert h with he | h
    case inl =>
      obtain ⟨_, rfl⟩ := Prod.mk.inj he
      simp
    case inr => exact hi h

theorem mem_foldl_iff {l : List (Nat × Record)} :
    (k, v) ∈ l.foldl addToGroup [] ↔ v = l.filter (·.2.groupKey = k) ∧ v ≠ [] := by
  constructor
  case mp  =>
    intro h
    have hv := getD_get?_foldl l k
    rw [KeyMap.get?_of_mem (sorted_foldl l) h] at hv
    exact ⟨hv, ne_nil_of_mem_foldl h⟩
  case mpr =>
    rintro ⟨rfl, hv⟩
    apply KeyMap.mem_of_get?
    have hk := getD_get?_foldl l k
    cases hg : KeyMap.get? k (l.foldl addToGroup [])
    case none   => exact absurd (by simpa [hg] using hk.symm) hv
    case some v => simpa [hg] using hk

theorem isGroup_groupOf (hv : s.entries.filter (·.2.groupKey = k) ≠ []) :
    s.IsGroup (groupOf (k, s.entries.filter (·.2.groupKey = k))) := by
  have hs := s.selects_filter (·.groupKey = k)
  have hm {i} : i ∈ (groupOf (k, s.entries.filter (·.2.groupKey = k))).records ↔
      ∃ r, s.records[i]? = some r ∧ r.groupKey = k :=
    hs.mem_iff i
  have hl : ∀ e ∈ s.entries.filter (·.2.groupKey = k), e.2.level.rank ≤
      (groupOf (k, s.entries.filter (·.2.groupKey = k))).maxLevel.rank := fun e he =>
    Level.rank_le_foldl_max _ _ _ <| List.mem_cons_of_mem _ <| List.mem_map_of_mem he
  have hf {e} : e ∈ s.entries.filter (·.2.groupKey = k) ↔
      s.records[e.1]? = some e.2 ∧ e.2.groupKey = k := by
    simp [mem_entries_iff]
  constructor
  case increasing => exact hs.increasing
  case mem_iff    => exact fun i => hm
  case highest    =>
    intro i hi r hr
    obtain ⟨r', hr', hk⟩ := hm.mp hi
    obtain rfl := Option.some.inj <| hr.symm.trans hr'
    exact hl (i, r) <| hf.mpr ⟨hr, hk⟩
  case attained   =>
    obtain ⟨e, he, hl⟩ := List.mem_map.mp <| Level.foldl_max_trace_mem (mt List.map_eq_nil_iff.mp hv)
    obtain ⟨hr, hk⟩ := hf.mp he
    exact ⟨e.1, hm.mpr ⟨e.2, hr, hk⟩, e.2, hr, hl⟩

theorem mem_groups_iff {g : RecordGroup} : g ∈ s.groups ↔
    ∃ k, s.entries.filter (·.2.groupKey = k) ≠ [] ∧
      g = groupOf (k, s.entries.filter (·.2.groupKey = k)) := by
  rw [groups, List.mem_map]
  constructor
  case mp  =>
    rintro ⟨⟨k, v⟩, he, rfl⟩
    obtain ⟨rfl, hv⟩ := mem_foldl_iff.mp he
    exact ⟨k, hv, rfl⟩
  case mpr =>
    rintro ⟨k, hv, rfl⟩
    exact ⟨_, mem_foldl_iff.mpr ⟨rfl, hv⟩, rfl⟩

theorem groups_increasing (s : RecordStore) :
    s.groups.Pairwise fun g g' => bytes g.key < bytes g'.key := by
  rw [groups, List.pairwise_map]
  refine (sorted_foldl s.entries).imp fun {e e'} ⟨hl, hn⟩ => bytes_lt_iff.mpr ?_
  refine (before_or_before hn).resolve_right fun h => ?_
  exact not_before_iff.mpr hl h

-- A record is in no group but that of its key.
theorem groupKey_of_mem {g : RecordGroup} {r : Record} (h : g ∈ s.groups) (hi : i ∈ g.records)
    (hr : s.records[i]? = some r) : r.groupKey = g.key := by
  obtain ⟨k, hv, rfl⟩ := mem_groups_iff.mp h
  obtain ⟨r', hr', hk⟩ := ((isGroup_groupOf hv).mem_iff i).mp hi
  rwa [Option.some.inj (hr.symm.trans hr')]

theorem exists_group (hi : i < s.size) : ∃ g ∈ s.groups, i ∈ g.records := by
  have hr := List.getElem?_eq_getElem hi
  have hv : s.entries.filter (·.2.groupKey = s.records[i].groupKey) ≠ [] :=
    List.ne_nil_of_mem <| List.mem_filter.mpr ⟨mem_entries_iff (e := (i, _)).mpr hr, by simp⟩
  exact ⟨_, mem_groups_iff.mpr ⟨_, hv, rfl⟩, ((isGroup_groupOf hv).mem_iff i).mpr ⟨_, hr, rfl⟩⟩

theorem lt_size_of_mem {g : RecordGroup} (h : g ∈ s.groups) (hi : i ∈ g.records) : i < s.size := by
  obtain ⟨k, hv, rfl⟩ := mem_groups_iff.mp h
  obtain ⟨r, hr, _⟩ := ((isGroup_groupOf hv).mem_iff i).mp hi
  exact (List.getElem?_eq_some_iff.mp hr).1

theorem group_unique {g g' : RecordGroup} (h : g ∈ s.groups) (h' : g' ∈ s.groups)
    (hi : i ∈ g.records) (hi' : i ∈ g'.records) : g = g' := by
  have hr := List.getElem?_eq_getElem (lt_size_of_mem h hi)
  have hk : g.key = g'.key := (groupKey_of_mem h hi hr).symm.trans (groupKey_of_mem h' hi' hr)
  obtain ⟨k, _, rfl⟩ := mem_groups_iff.mp h
  obtain ⟨k', _, rfl⟩ := mem_groups_iff.mp h'
  obtain rfl : k = k' := hk
  rfl

theorem partition_groups (s : RecordStore) : s.Partition s.groups where
  isGroup g h := by
    obtain ⟨k, hv, rfl⟩ := mem_groups_iff.mp h
    exact isGroup_groupOf hv
  increasing := s.groups_increasing
  unique i hi := by
    have ⟨g, h, hm⟩ := exists_group hi
    exact ⟨g, ⟨h, hm⟩, fun g' ⟨h', hm'⟩ => group_unique h' h hm' hm⟩
  perm := by
    have hn : (s.groups.flatMap (·.records)).Nodup := by
      rw [List.nodup_flatMap]
      constructor
      case left  =>
        intro g h
        obtain ⟨k, hv, rfl⟩ := mem_groups_iff.mp h
        exact (isGroup_groupOf hv).increasing.imp Nat.ne_of_lt
      case right =>
        refine s.groups_increasing.imp_of_mem fun {g g'} h h' hl i hi hi' => ?_
        exact List.lt_irrefl _ (group_unique h h' hi hi' ▸ hl)
    rw [List.perm_ext_iff_of_nodup hn List.nodup_range]
    intro i
    rw [List.mem_flatMap, List.mem_range]
    exact ⟨fun ⟨g, h, hi⟩ => lt_size_of_mem h hi, exists_group⟩

end Groups

theorem selects_idsWhere (s : RecordStore) (p : Record → Bool) :
    s.Selects (p · = true) (s.idsWhere p) := by
  simpa [idsWhere] using s.selects_filter (p · = true)

theorem precedes_chronological (s : RecordStore) : s.chronological.Pairwise s.Precedes := by
  have hs := Lists.pairwise_mergeSort (fun a b => le a.2.timestamp b.2.timestamp)
    (fun _ _ _ => Text.le_trans) (fun _ _ => Text.le_total ..) s.entries_increasing
  refine List.pairwise_map.mpr <| hs.imp_of_mem fun {a b} ha hb ⟨hl, hi⟩ => ?_
  have ha := mem_entries_iff.mp <| List.mem_mergeSort.mp ha
  have hb := mem_entries_iff.mp <| List.mem_mergeSort.mp hb
  refine ⟨a.2, b.2, ha, hb, ?_⟩
  by_cases hl' : le b.2.timestamp a.2.timestamp = true
  case pos => exact .inr ⟨Text.le_antisymm hl hl', hi hl'⟩
  case neg => exact .inl <| bytes_lt_iff.mpr <| Bool.eq_false_iff.mpr hl'

-- Before a record without a timestamp there are only such records with smaller numbers.
theorem Precedes.undated (h : s.Precedes i j) (hj : j ∈ s.idsWhere (·.timestamp = [])) :
    i ∈ s.idsWhere (·.timestamp = []) ∧ i < j := by
  have hu := s.selects_idsWhere (·.timestamp = [])
  obtain ⟨r, r', hi, hr, ht⟩ := h
  obtain ⟨_, hr', hn⟩ := (hu.mem_iff j).mp hj
  obtain rfl := Option.some.inj <| hr.symm.trans hr'
  have hn : r'.timestamp = [] := of_decide_eq_true hn
  rcases ht with ht | ⟨ht, hl⟩
  case inl => exact absurd ht <| hn ▸ List.not_lt_nil _
  case inr => exact ⟨(hu.mem_iff i).mpr ⟨r, hi, decide_eq_true <| ht.trans hn⟩, hl⟩

theorem perm_chronological (s : RecordStore) : s.chronological.Perm (List.range s.size) :=
  s.map_fst_entries ▸ (s.entries.mergeSort_perm _).map Prod.fst

-- The records without a timestamp are in one order only.
theorem filter_undated (s : RecordStore) :
    s.chronological.filter (· ∈ s.idsWhere (·.timestamp = [])) =
      s.idsWhere (·.timestamp = []) := by
  have hp := s.perm_chronological
  have hu := s.selects_idsWhere (·.timestamp = [])
  have hn : s.chronological.Nodup := hp.nodup_iff.mpr List.nodup_range
  refine List.Perm.eq_of_pairwise' ?_ hu.increasing ?_
  case refine_1 =>
    refine (s.precedes_chronological.filter _).imp_of_mem fun {i j} _ hj h => ?_
    exact (h.undated <| of_decide_eq_true (List.mem_filter.mp hj).2).2
  case refine_2 =>
    rw [List.perm_ext_iff_of_nodup (hn.filter _) (hu.increasing.imp Nat.ne_of_lt)]
    intro i
    simp only [List.mem_filter, decide_eq_true_eq, and_iff_right_iff_imp, hp.mem_iff,
      List.mem_range]
    intro hi
    obtain ⟨r, hr, _⟩ := (hu.mem_iff i).mp hi
    exact (List.getElem?_eq_some_iff.mp hr).1

theorem chronological_chronological (s : RecordStore) : s.Chronological s.chronological := by
  have hp := s.perm_chronological
  have hs := s.precedes_chronological
  refine ⟨hp, hs, s.chronological.filter (· ∉ s.idsWhere (·.timestamp = [])), ?_, fun i hi => ?_⟩
  case refine_1 =>
    have hf := Lists.filter_append_filter (· ∈ s.idsWhere (·.timestamp = [])) <|
      hs.imp fun {i j} h hj => decide_eq_true (h.undated <| of_decide_eq_true hj).1
    rw [filter_undated] at hf
    simpa using hf.symm
  case refine_2 =>
    obtain ⟨hi, hn⟩ := List.mem_filter.mp hi
    have hr := List.getElem?_eq_getElem <| List.mem_range.mp <| hp.mem_iff.mp hi
    refine ⟨_, hr, fun he => of_decide_eq_true hn ?_⟩
    exact ((s.selects_idsWhere _).mem_iff i).mpr ⟨_, hr, decide_eq_true he⟩

-- Each view has what it should have of the records. The groups are all of them by their keys, with
-- the highest level in each; the chronological view is all of them by their timestamps, those without
-- one first; the views by level and of failures are those records in their order, and every error is
-- a failure.
theorem views_agree (s : RecordStore) :
    s.Partition s.groups ∧
    s.Chronological s.chronological ∧
    (∀ l, s.Selects (fun r => l.rank ≤ r.level.rank) (s.atLeast l)) ∧
    s.Selects (isFailure · = true) s.errors ∧
    s.atLeast .error ⊆ s.errors := by
  refine ⟨s.partition_groups, s.chronological_chronological, fun l => ?_,
    s.selects_idsWhere isFailure, fun i hi => ?_⟩
  case refine_1 => simpa using! s.selects_idsWhere fun r => l.rank ≤ r.level.rank
  case refine_2 =>
    obtain ⟨r, hr, hl⟩ := ((s.selects_idsWhere _).mem_iff i).mp hi
    have hl : r.level = .error := by
      have := of_decide_eq_true hl
      cases hr : r.level <;> simp_all [Level.rank]
    exact ((s.selects_idsWhere isFailure).mem_iff i).mpr ⟨r, hr, by simp [isFailure, hl]⟩

end RecordStore

end LogOrigin
