import LogOrigin.Proofs.Json.Tokens
import Mathlib.Data.List.TakeWhile

-- The texts of JSON values, and that reading finds exactly what they stand for.

namespace LogOrigin.Json

open Text

variable {t u a b c p q r s : Text} {v : Json} {l : List Json} {m : List (Text × Json)} {d e f : Nat}

theorem isSpace_iff {c : Char} : isSpace c = true ↔ c = ' ' ∨ c = '\n' ∨ c = '\t' ∨ c = '\r' := by
  simp [isSpace, or_assoc]

theorem isBlank_of_isSpace {c : Char} (h : isSpace c = true) : isBlank c = true := by
  rcases isSpace_iff.mp h with rfl | rfl | rfl | rfl <;> decide

def Spaces (t : Text) : Prop :=
  ∀ c ∈ t, isSpace c = true

theorem exists_skipSpace (t : Text) : ∃ a, t = a ++ skipSpace t ∧ Spaces a :=
  ⟨t.takeWhile isSpace, List.takeWhile_append_dropWhile.symm, List.all_eq_true.mp List.all_takeWhile⟩

theorem Spaces.skipSpace_append (ha : Spaces a) : skipSpace (a ++ t) = skipSpace t :=
  List.dropWhile_append_of_pos ha

theorem skipSpace_cons {c : Char} (h : isSpace c = false) (t : Text) :
    skipSpace (c :: t) = c :: t := by
  simp [skipSpace, h]

-- The parts of a document: a value, a value with spaces around it, and the rest of an array or of an
-- object after its opening bracket. Members stand in their order in the text, with repetitions.
inductive Piece where
  | value (v : Json)
  | padded (v : Json)
  | items (l : List Json)
  | members (m : List (Text × Json))

-- Of members with the same key the last one counts.
def addMembers (m n : List (Text × Json)) : List (Text × Json) :=
  n.foldl (fun m e => KeyMap.insert e.1 e.2 m) m

-- A text stands for a part of a document whose arrays and objects are nested `d` deep at most.
inductive Denotes : Nat → Text → Piece → Prop
  | null (d : Nat) : Denotes d ['n', 'u', 'l', 'l'] (.value null)
  | boolTrue (d : Nat) : Denotes d ['t', 'r', 'u', 'e'] (.value (bool true))
  | boolFalse (d : Nat) : Denotes d ['f', 'a', 'l', 's', 'e'] (.value (bool false))
  | number {d : Nat} {t : Text} {n : JsonNumber} :
    JsonNumber.read t = some (n, []) → Denotes d t (.value (number n))
  | string {d : Nat} {t s : Text} : Quoted t s → Denotes d ('"' :: t) (.value (string s))
  | emptyArray {d : Nat} {a : Text} :
    Spaces a → Denotes (d + 1) ('[' :: (a ++ [']'])) (.value (array []))
  | array {d : Nat} {t : Text} {l : List Json} :
    Denotes d t (.items l) → Denotes (d + 1) ('[' :: t) (.value (array l))
  | emptyObject {d : Nat} {a : Text} :
    Spaces a → Denotes (d + 1) ('{' :: (a ++ ['}'])) (.value (object []))
  | object {d : Nat} {t : Text} {m : List (Text × Json)} :
    Denotes d t (.members m) → Denotes (d + 1) ('{' :: t) (.value (object (addMembers [] m)))
  | padded {d : Nat} {a c b : Text} {v : Json} :
    Spaces a → Denotes d c (.value v) → Spaces b → Denotes d (a ++ (c ++ b)) (.padded v)
  | lastItem {d : Nat} {p : Text} {v : Json} :
    Denotes d p (.padded v) → Denotes d (p ++ [']']) (.items [v])
  | item {d : Nat} {p t : Text} {v : Json} {l : List Json} :
    Denotes d p (.padded v) → Denotes d t (.items l) → Denotes d (p ++ ',' :: t) (.items (v :: l))
  | lastMember {d : Nat} {a q b p k : Text} {v : Json} :
    Spaces a → Quoted q k → Spaces b → Denotes d p (.padded v) →
    Denotes d (a ++ '"' :: (q ++ (b ++ ':' :: (p ++ ['}'])))) (.members [(k, v)])
  | member {d : Nat} {a q b p t k : Text} {v : Json} {m : List (Text × Json)} :
    Spaces a → Quoted q k → Spaces b → Denotes d p (.padded v) → Denotes d t (.members m) →
    Denotes d (a ++ '"' :: (q ++ (b ++ ':' :: (p ++ ',' :: t)))) (.members ((k, v) :: m))

theorem Denotes.mono {x : Piece} (h : Denotes d t x) (hd : d ≤ e) : Denotes e t x := by
  induction h generalizing e
  case null                      => exact .null e
  case boolTrue                  => exact .boolTrue e
  case boolFalse                 => exact .boolFalse e
  case number h                  => exact .number h
  case string h                  => exact .string h
  case padded ha _ hb hi         => exact .padded ha (hi hd) hb
  case lastItem hi               => exact .lastItem (hi hd)
  case item hi hj                => exact .item (hi hd) (hj hd)
  case lastMember ha hq hb _ hi  => exact .lastMember ha hq hb (hi hd)
  case member ha hq hb _ _ hi hj => exact .member ha hq hb (hi hd) (hj hd)
  all_goals obtain ⟨e, rfl⟩ := Nat.exists_eq_add_one_of_ne_zero (by omega : e ≠ 0)
  case emptyArray ha             => exact .emptyArray ha
  case array hi                  => exact .array (hi (by omega))
  case emptyObject ha            => exact .emptyObject ha
  case object hi                 => exact .object (hi (by omega))

theorem readValue_spaces (ha : Spaces a) : readValue f d (a ++ t) = readValue f d t := by
  rw [readValue.eq_def, ha.skipSpace_append, ← readValue.eq_def]

theorem readMembers_spaces (ha : Spaces a) : readMembers f d m (a ++ t) = readMembers f d m t := by
  rw [readMembers.eq_def, ha.skipSpace_append, ← readMembers.eq_def]

-- One step of reading, by the first character of the value.
theorem readValue_null : readValue (f + 1) d ('n' :: 'u' :: 'l' :: 'l' :: t) = some (null, t) := by
  rw [readValue.eq_def, skipSpace_cons (by decide)]
  rfl

theorem readValue_true :
    readValue (f + 1) d ('t' :: 'r' :: 'u' :: 'e' :: t) = some (bool true, t) := by
  rw [readValue.eq_def, skipSpace_cons (by decide)]
  rfl

theorem readValue_false :
    readValue (f + 1) d ('f' :: 'a' :: 'l' :: 's' :: 'e' :: t) = some (bool false, t) := by
  rw [readValue.eq_def, skipSpace_cons (by decide)]
  rfl

theorem readValue_string : readValue (f + 1) d ('"' :: t) =
    (readString (f + 1) [] t).bind fun (s, t) => some (string s, t) := by
  rw [readValue.eq_def, skipSpace_cons (by decide)]
  rfl

theorem readValue_array : readValue (f + 1) (d + 1) ('[' :: t) =
    match skipSpace t with
      | ']' :: t => some (array [], t)
      | t        => (readItems f d [] t).bind fun (l, t) => some (array l, t) := by
  rw [readValue.eq_def, skipSpace_cons (by decide)]
  rfl

theorem readValue_object : readValue (f + 1) (d + 1) ('{' :: t) =
    match skipSpace t with
      | '}' :: t => some (object [], t)
      | t        => (readMembers f d [] t).bind fun (m, t) => some (object m, t) := by
  rw [readValue.eq_def, skipSpace_cons (by decide)]
  rfl

theorem isSpace_eq_false {c : Char} (hc : c = '-' ∨ isAsciiDigit c = true) : isSpace c = false := by
  by_contra h
  rcases isSpace_iff.mp (Bool.not_eq_false _ ▸ h) with rfl | rfl | rfl | rfl
  all_goals exact absurd hc (by decide)

theorem readValue_number {c : Char} (hc : c = '-' ∨ isAsciiDigit c = true) :
    readValue (f + 1) d (c :: t) =
      (JsonNumber.read (c :: t)).bind fun p => some (number p.1, p.2) := by
  rw [readValue.eq_def, skipSpace_cons (isSpace_eq_false hc)]
  split
  case h_1 h   => cases h
  case h_2 h _ => cases h
  case h_9     => rfl
  all_goals
    rename_i h
    cases h
    exact absurd hc (by decide)

theorem readItems_eq : readItems (f + 1) d l t = (readValue f d t).bind fun (v, t) =>
    match skipSpace t with
      | ',' :: t => readItems f d (v :: l) t
      | ']' :: t => some ((v :: l).reverse, t)
      | _        => none := by
  rw [readItems]
  rfl

theorem readItems_spaces (ha : Spaces a) : readItems f d l (a ++ t) = readItems f d l t := by
  cases f
  case zero => rfl
  case succ => rw [readItems_eq, readItems_eq, readValue_spaces ha]

theorem readMembers_eq : readMembers (f + 1) d m ('"' :: t) =
    (readString (f + 1) [] t).bind fun (k, t) =>
      match skipSpace t with
        | ':' :: t => (readValue f d t).bind fun (v, t) =>
          match skipSpace t with
            | ',' :: t => readMembers f d (KeyMap.insert k v m) t
            | '}' :: t => some (KeyMap.insert k v m, t)
            | _        => none
        | _        => none := by
  rw [readMembers.eq_def, skipSpace_cons (by decide)]
  rfl

-- What is read with a bounded number of steps is what the text stands for. The steps of the three
-- readers are bounded together, as each of them calls the others with one step less.
structure Sound (f : Nat) : Prop where
  value : ∀ {d t v r}, readValue f d t = some (v, r) →
    ∃ a c, t = a ++ (c ++ r) ∧ Spaces a ∧ Denotes d c (.value v)
  items : ∀ {d l t k r}, readItems f d l t = some (k, r) →
    ∃ p n, t = p ++ r ∧ k = l.reverse ++ n ∧ Denotes d p (.items n)
  members : ∀ {d m t k r}, readMembers f d m t = some (k, r) →
    ∃ p n, t = p ++ r ∧ k = addMembers m n ∧ Denotes d p (.members n)

namespace Sound

theorem padded (hs : Sound f) (h : readValue f d t = some (v, r)) :
    ∃ p, t = p ++ skipSpace r ∧ Denotes d p (.padded v) := by
  obtain ⟨a, c, rfl, ha, hc⟩ := hs.value h
  have ⟨b, hr, hb⟩ := exists_skipSpace r
  refine ⟨a ++ (c ++ b), ?_, .padded ha hc hb⟩
  rw [List.append_assoc, List.append_assoc, ← hr]

theorem items_succ {k : List Json} (hs : Sound f) (h : readItems (f + 1) d l t = some (k, r)) :
    ∃ p n, t = p ++ r ∧ k = l.reverse ++ n ∧ Denotes d p (.items n) := by
  rw [readItems_eq, Option.bind_eq_some_iff] at h
  obtain ⟨⟨v, t'⟩, hv, h⟩ := h
  obtain ⟨p, rfl, hp⟩ := hs.padded hv
  dsimp only at h
  split at h
  case h_1 t'' ht =>
    rw [ht]
    obtain ⟨q, n, rfl, rfl, hn⟩ := hs.items h
    exact ⟨p ++ ',' :: q, v :: n, by simp, by simp, .item hp hn⟩
  case h_2 ht =>
    cases h
    exact ⟨p ++ [']'], [v], by simp [ht], by simp, .lastItem hp⟩
  case h_3 => cases h

theorem members_succ {k : List (Text × Json)} (hs : Sound f)
    (h : readMembers (f + 1) d m t = some (k, r)) :
    ∃ p n, t = p ++ r ∧ k = addMembers m n ∧ Denotes d p (.members n) := by
  have ⟨a, ht, ha⟩ := exists_skipSpace t
  by_cases hq : (skipSpace t).head? = some '"'
  case neg =>
    rw [readMembers.eq_def] at h
    split at h
    case h_1 hs => exact absurd (by rw [hs]; rfl) hq
    case h_2    => cases h
  case pos =>
    obtain ⟨t', hq⟩ := List.head?_eq_some_iff.mp hq
    rw [ht, hq, readMembers_spaces ha, readMembers_eq, Option.bind_eq_some_iff] at h
    obtain ⟨⟨s, t''⟩, hk, h⟩ := h
    obtain ⟨q, s, rfl, rfl, hs'⟩ := exists_quoted hk
    have ⟨b, hb, hb'⟩ := exists_skipSpace t''
    dsimp only at h
    split at h
    case h_2 => cases h
    case h_1 t' hc =>
      obtain ⟨⟨v, t⟩, hv, hm⟩ := Option.bind_eq_some_iff.mp h
      obtain ⟨p, rfl, hp⟩ := hs.padded hv
      dsimp only at hm
      split at hm
      case h_1 t' ht' =>
        obtain ⟨p', n, rfl, rfl, hn⟩ := hs.members hm
        refine ⟨_, _, ?_, rfl, .member ha hs' hb' hp hn⟩
        rw [ht, hq, hb, hc, ht']
        simp
      case h_2 t' ht' =>
        cases hm
        refine ⟨_, _, ?_, rfl, .lastMember ha hs' hb' hp⟩
        rw [ht, hq, hb, hc, ht']
        simp
      case h_3 => cases hm

theorem array_succ (hs : Sound f) (h : readValue (f + 1) d ('[' :: t) = some (v, r)) :
    ∃ c, '[' :: t = c ++ r ∧ Denotes d c (.value v) := by
  have ⟨a, ht, ha⟩ := exists_skipSpace t
  obtain _ | d := d
  case zero =>
    rw [readValue.eq_def, skipSpace_cons (by decide)] at h
    cases h
  case succ =>
    rw [readValue_array] at h
    split at h
    case h_1 hc =>
      cases h
      exact ⟨'[' :: (a ++ [']']), by rw [ht, hc]; simp, .emptyArray ha⟩
    case h_2    =>
      rw [← readItems_spaces ha, ← ht, Option.bind_eq_some_iff] at h
      obtain ⟨⟨l, t⟩, hr, h⟩ := h
      obtain ⟨p, l, rfl, rfl, hl⟩ := hs.items hr
      cases h
      exact ⟨'[' :: p, rfl, .array hl⟩

theorem object_succ (hs : Sound f) (h : readValue (f + 1) d ('{' :: t) = some (v, r)) :
    ∃ c, '{' :: t = c ++ r ∧ Denotes d c (.value v) := by
  have ⟨a, ht, ha⟩ := exists_skipSpace t
  obtain _ | d := d
  case zero =>
    rw [readValue.eq_def, skipSpace_cons (by decide)] at h
    cases h
  case succ =>
    rw [readValue_object] at h
    split at h
    case h_1 hc =>
      cases h
      exact ⟨'{' :: (a ++ ['}']), by rw [ht, hc]; simp, .emptyObject ha⟩
    case h_2    =>
      rw [← readMembers_spaces ha, ← ht, Option.bind_eq_some_iff] at h
      obtain ⟨⟨m, t⟩, hr, h⟩ := h
      obtain ⟨p, m, rfl, rfl, hm⟩ := hs.members hr
      cases h
      exact ⟨'{' :: p, rfl, .object hm⟩

theorem value_succ (hs : Sound f) (h : readValue (f + 1) d t = some (v, r)) :
    ∃ a c, t = a ++ (c ++ r) ∧ Spaces a ∧ Denotes d c (.value v) := by
  have ⟨a, ht, ha⟩ := exists_skipSpace t
  have hr : readValue (f + 1) d (skipSpace t) = some (v, r) := by
    rw [← readValue_spaces ha, ← ht, h]
  suffices ∃ c, skipSpace t = c ++ r ∧ Denotes d c (.value v) by
    obtain ⟨c, hc, hd⟩ := this
    exact ⟨a, c, hc ▸ ht, ha, hd⟩
  rw [readValue.eq_def] at h
  split at h
  case h_1 => cases h
  case h_2 => cases h
  case h_3 hq =>
    rw [hq, readValue_string, Option.bind_eq_some_iff] at hr
    obtain ⟨⟨s, t⟩, hread, hr⟩ := hr
    obtain ⟨q, s, rfl, rfl, hs'⟩ := exists_quoted hread
    cases hr
    exact ⟨'"' :: q, hq, .string hs'⟩
  case h_4 hq => exact hq ▸ hs.array_succ (hq ▸ hr)
  case h_5 hq => exact hq ▸ hs.object_succ (hq ▸ hr)
  case h_6 hq =>
    cases h
    exact ⟨_, hq, .null d⟩
  case h_7 hq =>
    cases h
    exact ⟨_, hq, .boolTrue d⟩
  case h_8 hq =>
    cases h
    exact ⟨_, hq, .boolFalse d⟩
  case h_9 =>
    rw [Option.bind_eq_bind, Option.bind_eq_some_iff] at h
    obtain ⟨⟨n, t⟩, hn, h⟩ := h
    cases h
    have ⟨x, c, ht, _, hu⟩ := JsonNumber.exists_read hn
    exact ⟨x :: c, ht, .number (by simpa using hu [] nofun)⟩

end Sound

theorem sound (f : Nat) : Sound f := by
  induction f
  case zero      => exact ⟨nofun, nofun, nofun⟩
  case succ f hi => exact ⟨hi.value_succ, hi.items_succ, hi.members_succ⟩

-- A value starts at once, and nothing that closes an array can be taken for it.
theorem Denotes.exists_head (h : Denotes d t (.value v)) :
    ∃ c t', t = c :: t' ∧ isSpace c = false ∧ c ≠ ']' := by
  cases h
  case number h =>
    have ⟨c, t, ht, hc, _⟩ := JsonNumber.exists_read h
    refine ⟨c, t, by simpa using ht, isSpace_eq_false hc, ?_⟩
    rintro rfl
    exact absurd hc (by decide)
  all_goals exact ⟨_, _, rfl, by decide, by decide⟩

theorem Denotes.skipSpace_append (h : Denotes d t (.value v)) (u : Text) :
    skipSpace (t ++ u) = t ++ u := by
  obtain ⟨c, t, rfl, hc, _⟩ := h.exists_head
  exact skipSpace_cons hc (t ++ u)

theorem Denotes.padded_head (h : Denotes d p (.padded v)) (u : Text) :
    (skipSpace (p ++ u)).head? ≠ some ']' := by
  cases h with
  | padded ha hc hb =>
    rw [List.append_assoc, ha.skipSpace_append, List.append_assoc, hc.skipSpace_append]
    obtain ⟨c, t, rfl, _, hc⟩ := hc.exists_head
    simpa using hc

theorem Denotes.items_head (h : Denotes d t (.items l)) (u : Text) :
    (skipSpace (t ++ u)).head? ≠ some ']' := by
  cases h
  case lastItem hp => simpa using hp.padded_head _
  case item hp _   => simpa using hp.padded_head _

theorem Denotes.members_head (h : Denotes d t (.members m)) (u : Text) :
    (skipSpace (t ++ u)).head? ≠ some '}' := by
  cases h
  all_goals
    rw [List.append_assoc, Spaces.skipSpace_append ‹_›, List.cons_append, skipSpace_cons (by decide)]
    simp

theorem readValue_items (h : (skipSpace t).head? ≠ some ']') :
    readValue (f + 1) (d + 1) ('[' :: t) =
      (readItems f d [] t).bind fun p => some (array p.1, p.2) := by
  have ⟨a, ht, ha⟩ := exists_skipSpace t
  rw [readValue_array]
  split
  case h_1 he => exact absurd (he ▸ rfl) h
  case h_2    => rw [← readItems_spaces ha, ← ht]

theorem readValue_members (h : (skipSpace t).head? ≠ some '}') :
    readValue (f + 1) (d + 1) ('{' :: t) =
      (readMembers f d [] t).bind fun p => some (object p.1, p.2) := by
  have ⟨a, ht, ha⟩ := exists_skipSpace t
  rw [readValue_object]
  split
  case h_1 he => exact absurd (he ▸ rfl) h
  case h_2    => rw [← readMembers_spaces ha, ← ht]

-- A member up to its colon.
theorem readMembers_key (ha : Spaces a) (hq : Quoted q s) (hb : Spaces b)
    (hf : q.length ≤ f + 1) : readMembers (f + 1) d m (a ++ '"' :: (q ++ (b ++ ':' :: t))) =
      (readValue f d t).bind fun p =>
        match skipSpace p.2 with
          | ',' :: t => readMembers f d (KeyMap.insert s p.1 m) t
          | '}' :: t => some (KeyMap.insert s p.1 m, t)
          | _        => none := by
  rw [readMembers_spaces ha, readMembers_eq, hq.readString_append hf]
  simp [hb.skipSpace_append, skipSpace_cons (c := ':') (by decide)]

theorem Spaces.apart (ha : Spaces a) (hu : JsonNumber.Apart u) : JsonNumber.Apart (a ++ u) := by
  cases a
  case nil      => exact hu
  case cons c a =>
    rintro _ ⟨⟩
    rcases isSpace_iff.mp (ha c List.mem_cons_self) with rfl | rfl | rfl | rfl <;> decide

-- What reading with enough steps gives for a part of a document, whatever comes after it. Two steps
-- for each character are enough: one for a value and one for the list that it stands in.
def Piece.Read (d : Nat) (t : Text) : Piece → Prop
  | .value v   => ∀ f u, 2 * t.length ≤ f + 2 → JsonNumber.Apart u →
    readValue (f + 1) d (t ++ u) = some (v, u)
  | .padded v  => ∀ f u, 2 * t.length ≤ f + 1 → JsonNumber.Apart u →
    ∃ b, Spaces b ∧ readValue f d (t ++ u) = some (v, b ++ u)
  | .items l   => ∀ f k u, 2 * t.length ≤ f →
    readItems f d k (t ++ u) = some (k.reverse ++ l, u)
  | .members m => ∀ f k u, 2 * t.length ≤ f →
    readMembers f d k (t ++ u) = some (addMembers k m, u)

theorem Denotes.read {x : Piece} (h : Denotes d t x) : x.Read d t := by
  induction h
  case null      => exact fun _ _ _ _ => readValue_null
  case boolTrue  => exact fun _ _ _ _ => readValue_true
  case boolFalse => exact fun _ _ _ _ => readValue_false
  case number h =>
    intro f u _ hu
    have ⟨c, t, ht, hc, hr⟩ := JsonNumber.exists_read h
    rw [ht, List.append_nil, List.cons_append, readValue_number hc, ← List.cons_append, hr u hu]
    rfl
  case string h =>
    intro f u hf _
    rw [List.cons_append, readValue_string, h.readString_append (by grind) [] u]
    rfl
  case emptyArray hb =>
    intro f u _ _
    rw [List.cons_append, readValue_array, List.append_assoc, hb.skipSpace_append]
    rfl
  case array h hi =>
    intro f u hf _
    rw [List.cons_append, readValue_items (h.items_head u), hi f [] u (by grind)]
    rfl
  case emptyObject hb =>
    intro f u _ _
    rw [List.cons_append, readValue_object, List.append_assoc, hb.skipSpace_append]
    rfl
  case object h hi =>
    intro f u hf _
    rw [List.cons_append, readValue_members (h.members_head u), hi f [] u (by grind)]
    rfl
  case padded ha hc hb hi =>
    intro f u hf hu
    obtain ⟨c, t, rfl, _, _⟩ := hc.exists_head
    obtain _ | f := f
    case zero => simp at hf; omega
    refine ⟨_, hb, ?_⟩
    rw [List.append_assoc, readValue_spaces ha, List.append_assoc]
    exact hi f _ (by grind) (hb.apart hu)
  case lastItem h hi =>
    intro f k u hf
    obtain _ | f := f
    case zero => simp at hf
    have ⟨b, hb, hv⟩ := hi f (']' :: u) (by grind) (by rintro _ ⟨⟩; decide)
    rw [readItems_eq, List.append_assoc, List.singleton_append, hv]
    simp [hb.skipSpace_append, skipSpace_cons (c := ']') (by decide)]
  case item p t v l h _ hi hj =>
    intro f k u hf
    obtain _ | f := f
    case zero => simp at hf
    have ⟨b, hb, hv⟩ := hi f (',' :: (t ++ u)) (by grind) (by rintro _ ⟨⟩; decide)
    rw [readItems_eq, List.append_assoc, List.cons_append, hv]
    simp [hb.skipSpace_append, skipSpace_cons (c := ',') (by decide), hj f _ u (by grind)]
  case lastMember ha hq hb h hi =>
    intro f k u hf
    obtain _ | f := f
    case zero => simp at hf
    have ⟨c, hc, hv⟩ := hi f ('}' :: u) (by grind) (by rintro _ ⟨⟩; decide)
    simp only [List.append_assoc, List.cons_append, List.nil_append]
    rw [readMembers_key ha hq hb (by grind), hv]
    simp [hc.skipSpace_append, skipSpace_cons (c := '}') (by decide), addMembers]
  case member t _ v m ha hq hb h _ hi hj =>
    intro f k u hf
    obtain _ | f := f
    case zero => simp at hf
    have ⟨c, hc, hv⟩ := hi f (',' :: (t ++ u)) (by grind) (by rintro _ ⟨⟩; decide)
    simp only [List.append_assoc, List.cons_append]
    rw [readMembers_key ha hq hb (by grind), hv]
    simp [hc.skipSpace_append, skipSpace_cons (c := ',') (by decide), hj f _ u (by grind), addMembers]

-- Reading finds the value of a document, and nothing else is a document.
theorem read?_eq_some_iff : read? t = some v ↔ Denotes maxDepth t (.padded v) := by
  rw [read?]
  constructor
  case mp  =>
    intro h
    split at h
    case h_1 v' r hr =>
      obtain ⟨he, hv⟩ := Option.ite_none_right_eq_some.mp h
      cases hv
      have ⟨p, ht, hp⟩ := (sound _).padded hr
      rw [List.isEmpty_iff.mp he, List.append_nil] at ht
      exact ht ▸ hp
    case h_2 => cases h
  case mpr =>
    intro h
    have ⟨b, hb, hr⟩ := h.read (2 * t.length + 2) [] (by omega) nofun
    rw [List.append_nil, List.append_nil] at hr
    have hb : skipSpace b = [] := List.dropWhile_eq_nil_iff.mpr hb
    simp [hr, hb]

-- The bracket at the end of the items or the members of a value.
def Piece.close? : Piece → Option Char
  | .items _   => some ']'
  | .members _ => some '}'
  | _          => none

theorem Denotes.exists_close {x : Piece} (h : Denotes d t x) :
    ∀ c ∈ x.close?, ∃ s, t = s ++ [c] := by
  induction h <;> rintro _ ⟨⟩
  case lastItem p _ _ _ => exact ⟨p, rfl⟩
  case item p _ _ _ _ _ _ hi =>
    obtain ⟨s, rfl⟩ := hi _ rfl
    exact ⟨p ++ ',' :: s, by simp⟩
  case lastMember a q b p _ _ _ _ _ _ _ => exact ⟨a ++ '"' :: (q ++ (b ++ ':' :: p)), by simp⟩
  case member a q b p _ _ _ _ _ _ _ _ _ _ hi =>
    obtain ⟨s, rfl⟩ := hi _ rfl
    exact ⟨a ++ '"' :: (q ++ (b ++ ':' :: (p ++ ',' :: s))), by simp⟩

theorem Denotes.items_ne_nil (h : Denotes d t (.items l)) : l ≠ [] := by
  cases h <;> nofun

theorem mem_addMembers {n : List (Text × Json)} {x : Text × Json} (h : x ∈ addMembers m n) :
    x ∈ m ∨ x ∈ n := by
  induction n generalizing m
  case nil         => exact .inl h
  case cons e n hi =>
    rcases hi h with hm | hn
    case inl => exact (KeyMap.mem_insert hm).elim (fun he => .inr (he ▸ List.mem_cons_self ..)) .inl
    case inr => exact .inr (List.mem_cons_of_mem _ hn)

theorem sorted_addMembers (h : KeyMap.Sorted m) (n : List (Text × Json)) :
    KeyMap.Sorted (addMembers m n) := by
  induction n generalizing m
  case nil         => exact h
  case cons e n hi => exact hi (h.insert e.1 e.2)

-- The members of an object are in the order of their keys, and each of them is a value of its own.
theorem Denotes.sorted (h : Denotes d t (.value (.object m))) : KeyMap.Sorted m := by
  cases h
  case emptyObject => exact .nil
  case object      => exact sorted_addMembers .nil _

theorem Denotes.exists_member {x : Piece} (h : Denotes d t x) :
    ∀ m, x = .members m → ∀ e ∈ m, ∃ f c, Denotes f c (.value e.2) := by
  have padded {d : Nat} {p : Text} {v : Json} (h : Denotes d p (.padded v)) :
      ∃ f c, Denotes f c (.value v) := by
    cases h with
    | padded _ hc _ => exact ⟨_, _, hc⟩
  induction h <;> rintro _ ⟨⟩
  case lastMember hp _        => exact List.forall_mem_singleton.mpr (padded hp)
  case member hp _ _ hi       => exact List.forall_mem_cons.mpr ⟨padded hp, hi _ rfl⟩

theorem Denotes.exists_value {x : Text × Json} (h : Denotes d t (.value (.object m)))
    (hx : x ∈ m) : ∃ f c, Denotes f c (.value x.2) := by
  cases h
  case emptyObject => cases hx
  case object h    =>
    rcases mem_addMembers hx with hx | hx
    case inl => cases hx
    case inr => exact h.exists_member _ rfl _ hx

theorem Denotes.array_text (h : Denotes d t (.value (.array l))) : ∃ s, t = '[' :: (s ++ [']']) := by
  cases h
  case emptyArray a _ => exact ⟨a, rfl⟩
  case array h        =>
    obtain ⟨s, rfl⟩ := h.exists_close _ rfl
    exact ⟨s, rfl⟩

theorem Denotes.object_text (h : Denotes d t (.value v)) (hv : v.isObject = true) :
    ∃ s, t = '{' :: (s ++ ['}']) := by
  cases h <;> simp [isObject] at hv
  case emptyObject a _ => exact ⟨a, rfl⟩
  case object h        =>
    obtain ⟨s, rfl⟩ := h.exists_close _ rfl
    exact ⟨s, rfl⟩

theorem Denotes.read?_eq (h : Denotes d t (.value v)) (hd : d ≤ maxDepth) : read? t = some v := by
  have : Denotes maxDepth ([] ++ (t ++ [])) (.padded v) := .padded nofun (h.mono hd) nofun
  exact read?_eq_some_iff.mpr (by simpa using this)

-- A value with a comma behind it is no document.
theorem Denotes.read?_eq_none (h : Denotes d t (.value v)) (hd : d ≤ maxDepth) (hb : Spaces b)
    (u : Text) : read? (t ++ (b ++ ',' :: u)) = none := by
  have hu : JsonNumber.Apart (b ++ ',' :: u) := hb.apart (by rintro _ ⟨⟩; decide)
  have := (h.mono hd).read (2 * (t ++ (b ++ ',' :: u)).length + 1) _ (by grind) hu
  rw [read?, this]
  simp [hb.skipSpace_append, skipSpace_cons (c := ',') (by decide)]

end LogOrigin.Json
