import LogOrigin.Log.Grammar
import LogOrigin.Proofs.Json.Documents
import LogOrigin.Proofs.Text.KeyMap
import LogOrigin.Proofs.Text.Trim
import Mathlib.Data.List.Pairwise

-- Lines that hold a JSON object. Every member of the object is used for one part of the record, or
-- else it is a field of its span.

namespace LogOrigin.Grammar

open Text

-- The key that a part of a record is taken from: of all keys for it the first one that a map has.
def key? (keys : List Text) (m : KeyMap Json) : Option Text :=
  keys.find? fun k => m.any fun e => k = e.1

def part? (keys : List Text) (m : KeyMap Json) : Option Json :=
  (key? keys m).bind (KeyMap.get? · m)

-- The members of an object that are nested as its fields, and the members outside of them. A member
-- of that name which is no object is a member like any other.
inductive Splits (m : KeyMap Json) : (inner outer : KeyMap Json) → Prop
  | nested {n : KeyMap Json} : ("fields".toList, .object n) ∈ m →
    Splits m n (m.filter fun x => x.1 ≠ "fields".toList)
  | flat : (∀ n, ("fields".toList, .object n) ∉ m) → Splits m [] m

-- The message is looked for among the outer members only if the inner ones have none.
def messageKeys (inner : KeyMap Json) : List (List Text) :=
  if (key? jsonKeys.message inner).isSome then [] else [jsonKeys.message]

-- The other parts are looked for among the outer members only.
def partKeys : List (List Text) :=
  [jsonKeys.level, jsonKeys.time, jsonKeys.target, jsonKeys.file, jsonKeys.line]

def outerKeys (inner : KeyMap Json) : List (List Text) :=
  messageKeys inner ++ partKeys

def used (groups : List (List Text)) (m : KeyMap Json) : List Text :=
  groups.filterMap fun keys => key? keys m

def usedInner (inner : KeyMap Json) : List Text :=
  used [jsonKeys.message] inner

def usedOuter (inner outer : KeyMap Json) : List Text :=
  used (outerKeys inner) outer

-- The members that no part of the record is taken from. The inner and the outer ones can have keys in
-- common.
def remaining (inner outer : KeyMap Json) : List (Text × Json) :=
  KeyMap.without (usedInner inner) inner ++ KeyMap.without (usedOuter inner outer) outer

variable {m inner outer : KeyMap Json} {keys : List Text} {k : Text} {groups : List (List Text)}

theorem key?_eq_some (h : key? keys m = some k) : k ∈ keys ∧ k ∈ m.map Prod.fst :=
  ⟨List.mem_of_find?_eq_some h, by simpa using List.find?_some h⟩

theorem exists_of_mem_used (h : k ∈ used groups m) : ∃ keys ∈ groups, key? keys m = some k := by
  simpa [used] using h

theorem used_append (groups groups' : List (List Text)) (m : KeyMap Json) :
    used (groups ++ groups') m = used groups m ++ used groups' m :=
  List.filterMap_append

theorem used_singleton (keys : List Text) (m : KeyMap Json) :
    used [keys] m = (key? keys m).toList := by
  cases h : key? keys m <;> simp [used, h]

theorem takeFirst_eq (hs : KeyMap.Sorted m) (keys : List Text) :
    takeFirst keys m = (part? keys m, KeyMap.without (used [keys] m) m) := by
  simp only [takeFirst, KeyMap.isSome_get?, part?, used_singleton]
  rw [← key?]
  cases key? keys m
  case none   => simp
  case some k => simp [KeyMap.erase_eq_without hs]

-- Groups of keys that have no key in common.
def Apart (keys keys' : List Text) : Prop :=
  ∀ k ∈ keys, k ∉ keys'

instance : Std.Symm Apart :=
  ⟨fun _ _ h k hk hk' => h k hk' hk⟩

theorem apart_partKeys : (jsonKeys.message :: partKeys).Pairwise Apart := by
  unfold Apart
  decide

theorem outerKeys_sublist (inner : KeyMap Json) :
    List.Sublist (outerKeys inner) (jsonKeys.message :: partKeys) := by
  unfold outerKeys messageKeys
  split
  case isTrue  => exact List.sublist_cons_self ..
  case isFalse => exact List.Sublist.refl _

theorem apart_outerKeys (inner : KeyMap Json) : (outerKeys inner).Pairwise Apart :=
  apart_partKeys.sublist (outerKeys_sublist inner)

-- What has been taken before does not matter for the keys of the next part.
theorem takeFirst_next (inner : KeyMap Json) (before : List (List Text)) {after : List (List Text)}
    (ho : KeyMap.Sorted outer) (h : partKeys = before ++ keys :: after) :
    takeFirst keys (KeyMap.without (used (messageKeys inner ++ before) outer) outer) =
      (part? keys outer,
        KeyMap.without (used (messageKeys inner ++ (before ++ [keys])) outer) outer) := by
  have hp := apart_outerKeys inner
  rw [outerKeys, h, ← List.append_assoc, List.pairwise_append] at hp
  rw [← List.append_assoc]
  generalize messageKeys inner ++ before = past at hp ⊢
  have hu : ∀ k ∈ keys, k ∉ used past outer := by
    intro k hk hu
    obtain ⟨g, hg, hk'⟩ := exists_of_mem_used hu
    exact hp.2.2 g hg keys (List.mem_cons_self ..) k (key?_eq_some hk').1 hk
  have hkey : key? keys (KeyMap.without (used past outer) outer) = key? keys outer := by
    rw [key?, ← List.head?_filter, key?, ← List.head?_filter]
    congr 1
    exact List.filter_congr fun k hk => by
      rw [← KeyMap.isSome_get?, KeyMap.get?_without (hu k hk), KeyMap.isSome_get?]
  have hpart : part? keys (KeyMap.without (used past outer) outer) = part? keys outer := by
    rw [part?, hkey, part?]
    exact Option.bind_congr fun k hk => KeyMap.get?_without (hu k (key?_eq_some hk).1) outer
  rw [takeFirst_eq (ho.without _), hpart, KeyMap.without_without, used_append, used_singleton,
    used_singleton, hkey]

-- The record of an object with a message.
def entriesOf (inner outer : KeyMap Json) (message : Json) : Entries where
  timestamp := ((part? jsonKeys.time outer).map Json.plain).getD []
  level     := ((part? jsonKeys.level outer).bind fun v => (Level.ofText v.plain).toOption).getD .info
  message   := message.plain
  target    := (part? jsonKeys.target outer).map Json.plain
  spans     := .single (((part? jsonKeys.target outer).map Json.plain).getD Record.rootName)
    ((remaining inner outer).map fun x => (x.1, x.2.plain))
  location  := locationOf (part? jsonKeys.file outer) ((part? jsonKeys.line outer).bind lineOf)

theorem Splits.splitNested (h : Splits m inner outer) (hs : KeyMap.Sorted m) :
    splitNested m = (inner, outer) := by
  cases h
  case nested hn =>
    rw [Grammar.splitNested, KeyMap.get?_of_mem hs hn, KeyMap.erase_eq_without hs,
      KeyMap.without_singleton]
  case flat hn =>
    rw [Grammar.splitNested]
    split
    case h_1 n hg => exact absurd (KeyMap.mem_of_get? hg) (hn n)
    case h_2      => rfl

theorem isSome_part? (keys : List Text) (m : KeyMap Json) :
    (part? keys m).isSome = (key? keys m).isSome := by
  rw [part?]
  cases h : key? keys m
  case none   => rfl
  case some k =>
    have := List.find?_some (p := fun k => m.any fun e => k = e.1) h
    rw [Option.bind_some, KeyMap.isSome_get?, this, Option.isSome_some]

theorem ofMembers_eq (h : Splits m inner outer) (hs : KeyMap.Sorted m) (hi : KeyMap.Sorted inner)
    (ho : KeyMap.Sorted outer) :
    ofMembers m = ((part? jsonKeys.message inner).or (part? jsonKeys.message outer)).map
      (entriesOf inner outer) := by
  -- Each part is taken from what the parts before it have left.
  have level := takeFirst_next inner [] ho rfl
  have time := takeFirst_next inner [_] ho rfl
  have target := takeFirst_next inner [_, _] ho rfl
  have file := takeFirst_next inner [_, _, _] ho rfl
  have line := takeFirst_next inner [_, _, _, _] ho rfl
  simp only [List.cons_append, List.nil_append] at level time target file line
  unfold ofMembers
  simp only [h.splitNested hs, takeFirst_eq hi]
  cases hm : part? jsonKeys.message inner
  case none =>
    have hk : messageKeys inner = [jsonKeys.message] := by
      simp [messageKeys, ← isSome_part?, hm]
    have message := takeFirst_eq ho jsonKeys.message
    rw [← hk, ← List.append_nil (messageKeys inner)] at message
    simp only [message, level, time, target, file, line]
    cases part? jsonKeys.message outer <;> rfl
  case some v =>
    have hk : messageKeys inner = [] := by simp [messageKeys, ← isSome_part?, hm]
    rw [hk, show used ([] ++ []) outer = [] from rfl, KeyMap.without_nil] at level
    rw [hk] at time target file line
    simp only [level, time, target, file, line]
    rw [Option.some_or, Option.map_some, entriesOf, remaining, usedOuter, outerKeys, hk]
    rfl

-- Where each part of the entries comes from, and what becomes of the members that are not used.
structure Accounts (m inner outer : KeyMap Json) (e : Entries) : Prop where
  message   : ∃ v, (part? jsonKeys.message inner).or (part? jsonKeys.message outer) = some v ∧
    e.message = v.plain
  timestamp : e.timestamp = ((part? jsonKeys.time outer).map Json.plain).getD []
  level     : e.level =
    ((part? jsonKeys.level outer).bind fun v => (Level.ofText v.plain).toOption).getD .info
  target    : e.target = (part? jsonKeys.target outer).map Json.plain
  spans     : e.spans = .single (e.target.getD Record.rootName)
    ((remaining inner outer).map fun x => (x.1, x.2.plain))
  location  : ∀ l, e.location = some l ↔ ∃ v, part? jsonKeys.file outer = some v ∧ v.plain ≠ [] ∧
    l = ⟨⟨v.plain⟩, ((part? jsonKeys.line outer).bind lineOf).getD 0 - 1⟩
  innerOnce : (usedInner inner ++ (KeyMap.without (usedInner inner) inner).map Prod.fst).Perm
    (inner.map Prod.fst)
  outerOnce : (usedOuter inner outer ++
    (KeyMap.without (usedOuter inner outer) outer).map Prod.fst).Perm (outer.map Prod.fst)
  second    : ∀ keys ∈ outerKeys inner, ∀ x ∈ outer, x.1 ∈ keys → key? keys outer ≠ some x.1 →
    x ∈ remaining inner outer
  beside    : (∃ k ∈ jsonKeys.message, k ∈ inner.map Prod.fst) → ∀ x ∈ outer,
    x.1 ∈ jsonKeys.message → x ∈ remaining inner outer
  noObject  : ∀ v, ("fields".toList, v) ∈ m → v.isObject = false →
    ("fields".toList, v) ∈ remaining inner outer

theorem isSome_key? : (key? keys m).isSome ↔ ∃ k ∈ keys, k ∈ m.map Prod.fst := by
  simp [key?, List.find?_isSome]

theorem used_nodup (h : groups.Pairwise Apart) (m : KeyMap Json) : (used groups m).Nodup := by
  refine List.pairwise_filterMap.mpr (h.imp ?_)
  rintro keys keys' ha k hk _ hk' rfl
  exact ha k (key?_eq_some hk).1 (key?_eq_some hk').1

theorem used_subset : ∀ k ∈ used groups m, k ∈ m.map Prod.fst := by
  intro k hk
  obtain ⟨keys, -, hk⟩ := exists_of_mem_used hk
  exact (key?_eq_some hk).2

theorem mem_remaining {x : Text × Json} (hx : x ∈ outer)
    (hn : ∀ keys ∈ outerKeys inner, key? keys outer ≠ some x.1) : x ∈ remaining inner outer := by
  refine List.mem_append_right _ (List.mem_filter.mpr ⟨hx, decide_eq_true fun hu => ?_⟩)
  obtain ⟨keys, hk, he⟩ := exists_of_mem_used hu
  exact hn keys hk he

theorem locationOf_eq_some_iff {file : Option Json} {line : Option Nat} {l : Location} :
    locationOf file line = some l ↔
      ∃ v, file = some v ∧ v.plain ≠ [] ∧ l = ⟨⟨v.plain⟩, line.getD 0 - 1⟩ := by
  cases file
  case none   => simp [locationOf]
  case some v =>
    by_cases h : v.plain = []
    case pos => simp [locationOf, h]
    case neg => simpa [locationOf, h] using eq_comm

theorem Splits.outer_of_noObject {v : Json} (h : Splits m inner outer) (hs : KeyMap.Sorted m)
    (hv : ("fields".toList, v) ∈ m) (hn : v.isObject = false) : ("fields".toList, v) ∈ outer := by
  cases h
  case nested hm =>
    cases (KeyMap.get?_of_mem hs hv).symm.trans (KeyMap.get?_of_mem hs hm)
    cases hn
  case flat      => exact hv

theorem accounts_entriesOf {v : Json} (h : Splits m inner outer) (hs : KeyMap.Sorted m)
    (hi : KeyMap.Sorted inner) (ho : KeyMap.Sorted outer)
    (hv : (part? jsonKeys.message inner).or (part? jsonKeys.message outer) = some v) :
    Accounts m inner outer (entriesOf inner outer v) where
  message   := ⟨v, hv, rfl⟩
  timestamp := rfl
  level     := rfl
  target    := rfl
  spans     := rfl
  location  := fun _ => locationOf_eq_some_iff
  innerOnce := KeyMap.perm_without hi (used_nodup (List.pairwise_singleton ..) _) used_subset
  outerOnce := KeyMap.perm_without ho (used_nodup (apart_outerKeys inner) _) used_subset
  second    := by
    intro keys hk x hx hm hn
    refine mem_remaining hx fun g hg he => ?_
    by_cases hgk : g = keys
    case pos => exact hn (hgk ▸ he)
    case neg =>
      exact (apart_outerKeys inner).forall hg hk hgk x.1 (key?_eq_some he).1 hm
  beside    := by
    intro hk x hx hm
    refine mem_remaining hx fun g hg he => ?_
    rw [outerKeys, messageKeys, if_pos (isSome_key?.mpr hk)] at hg
    exact (List.pairwise_cons.mp apart_partKeys).1 g hg x.1 hm (key?_eq_some he).1
  noObject  := by
    intro v hv hn
    have hf : ∀ keys ∈ jsonKeys.message :: partKeys, "fields".toList ∉ keys := by decide
    refine mem_remaining (h.outer_of_noObject hs hv hn) fun g hg he => ?_
    exact hf g ((outerKeys_sublist inner).subset hg) (key?_eq_some he).1

theorem exists_splits {d : Nat} {t : Text} (h : Json.Denotes d t (.value (.object m))) :
    ∃ inner outer, Splits m inner outer ∧ KeyMap.Sorted inner ∧ KeyMap.Sorted outer := by
  by_cases hn : ∃ n, ("fields".toList, .object n) ∈ m
  case pos =>
    obtain ⟨n, hn⟩ := hn
    obtain ⟨_, _, hd⟩ := h.exists_value hn
    exact ⟨n, _, .nested hn, hd.sorted, h.sorted.sublist List.filter_sublist⟩
  case neg => exact ⟨[], m, .flat fun n hm => hn ⟨n, hm⟩, .nil, h.sorted⟩

-- A trimmed line that stands for an object begins with its bracket.
theorem exists_object {line : Text} (h : Json.read? (trim line) = some (.object m)) :
    (trim line).head? = some '{' ∧ ∃ d t, Json.Denotes d t (.value (.object m)) := by
  have hb := head?_trim line
  have hd := Json.read?_eq_some_iff.mp h
  generalize trim line = t at hb hd
  cases hd
  case padded a c b ha hb' hc =>
    refine ⟨?_, _, c, hc⟩
    obtain ⟨s, rfl⟩ := hc.object_text rfl
    rcases a with _ | ⟨x, a⟩
    case nil  => rfl
    case cons =>
      have hx := Json.isBlank_of_isSpace (ha x (List.mem_cons_self ..))
      cases hx.symm.trans (hb x rfl)

theorem json_eq_ofMembers {line : Text} (h : Json.read? (trim line) = some (.object m)) :
    Grammar.json.parse line = ofMembers m := by
  unfold Grammar.json
  simp only [(exists_object h).1, h, if_true]

theorem exists_members {line : Text} {e : Entries} (h : Grammar.json.parse line = some e) :
    ∃ m, Json.read? (trim line) = some (.object m) := by
  unfold Grammar.json at h
  simp only at h
  split at h
  case isTrue  =>
    split at h
    case h_1 m hm => exact ⟨m, hm⟩
    case h_2      => cases h
  case isFalse => cases h

-- Every member of a line that holds an object is accounted for.
theorem json_accounts {line : Text} (h : Json.read? (trim line) = some (.object m)) :
    ∃ inner outer, Splits m inner outer ∧ KeyMap.Sorted inner ∧ KeyMap.Sorted outer ∧
      ((∃ e, Grammar.json.parse line = some e) ↔
        ∃ k ∈ jsonKeys.message, k ∈ inner.map Prod.fst ∨ k ∈ outer.map Prod.fst) ∧
      ∀ e, Grammar.json.parse line = some e → Accounts m inner outer e := by
  obtain ⟨-, d, t, hd⟩ := exists_object h
  obtain ⟨inner, outer, hm, hi, ho⟩ := exists_splits hd
  have hp : Grammar.json.parse line = _ :=
    (json_eq_ofMembers h).trans (ofMembers_eq hm hd.sorted hi ho)
  refine ⟨inner, outer, hm, hi, ho, ?accepts, ?accounts⟩
  case accepts  =>
    rw [hp, ← Option.isSome_iff_exists, Option.isSome_map, Option.isSome_or, isSome_part?,
      isSome_part?, Bool.or_eq_true, isSome_key?, isSome_key?]
    simp only [and_or_left, exists_or]
  case accounts =>
    intro e he
    obtain ⟨v, hv, rfl⟩ := Option.map_eq_some_iff.mp (hp.symm.trans he)
    exact accounts_entriesOf hm hd.sorted hi ho hv

-- A message among the fields with another one beside it, one outside of them, and two keys for the
-- level.
theorem json_accounts_nested :
    let line : Text := (" \x7b\"severity\": \"warn\", \"lvl\": 1, \"msg\": \"top\", " ++
      "\"file\": \"a.rs\", \"line\": 0, " ++
      "\"fields\": \x7b\"msg\": \"second\", \"message\": \"m\"\x7d\x7d").toList
    ∃ m inner outer e, Json.read? (trim line) = some (.object m) ∧
      Splits m inner outer ∧ Grammar.json.parse line = some e ∧ Accounts m inner outer e ∧
      e.level = .warn ∧ e.message = "m".toList ∧ e.location = some ⟨⟨"a.rs".toList⟩, 0⟩ ∧
      e.spans = .single "root".toList [("msg".toList, "second".toList),
        ("lvl".toList, "1".toList), ("msg".toList, "top".toList)] := by
  intro line
  have he : Grammar.json.parse line = some ⟨[], .warn, "m".toList, none,
      .single "root".toList [("msg".toList, "second".toList), ("lvl".toList, "1".toList),
        ("msg".toList, "top".toList)], some ⟨⟨"a.rs".toList⟩, 0⟩⟩ := by
    decide +kernel
  obtain ⟨m, hm⟩ := exists_members he
  obtain ⟨inner, outer, hs, -, -, -, ha⟩ := json_accounts hm
  exact ⟨m, inner, outer, _, hm, hs, he, ha _ he, rfl, rfl, rfl, rfl⟩

end LogOrigin.Grammar
