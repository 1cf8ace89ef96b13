import LogOrigin.Proofs.Oracle.Values
import Mathlib.Data.List.Induction

-- What the oracle makes of a message: literal runs with values between them, the run that it takes
-- for the literal text, and the values by their names.

namespace LogOrigin

open Text Text.Pattern

namespace Lexical

def placeAt (t : Text) (n : Nat) : Place :=
  (Place.ofText t).skip n

-- The values of a text from some character on. Each one is the preferred match at the first place
-- where the pattern matches. Before it there is a literal run, with the name of the value if it has
-- one, and the search goes on behind it.
inductive Cut (t : Text) : Nat → List (Text × Value) → Text → Prop where
  | rest {n : Nat} (h : ∀ i, n ≤ i → i ≤ t.length → Dynamic.value.ends (placeAt t i) = []) :
    Cut t n [] (t.drop n)
  | value {n i : Nat} {q : Place} {v : Value} {parts : List (Text × Value)} {last : Text}
    (hn : n ≤ i) (h : ∀ j, n ≤ j → j < i → Dynamic.value.ends (placeAt t j) = [])
    (hq : (Dynamic.value.ends (placeAt t i)).head? = some q)
    (hv : v = Dynamic.ofMatch (placeAt t i) q) (hc : Cut t q.index parts last) :
    Cut t n (((t.drop n).take (i - n) ++ v.lead, v) :: parts) last

-- The text that is made up of runs and the values behind them.
def joined (parts : List (Text × Value)) : Text :=
  parts.flatMap fun x => x.1 ++ x.2.text

-- The first of the longest runs without what is at their ends, if one is long enough, and else the
-- whole text.
inductive IsLiteral (t : Text) (runs : List Text) : Text → Prop where
  | run {s : Text} {l l' : List Text} (h : runs.map trimRun = l ++ s :: l') (hs : minRun ≤ s.length)
    (hl : ∀ u ∈ l, u.length < s.length) (hl' : ∀ u ∈ l', u.length ≤ s.length) :
    IsLiteral t runs s
  | whole (h : ∀ r ∈ runs, (trimRun r).length < minRun) : IsLiteral t runs t

-- A place of a text where it is before or behind every value.
def StandsApart (t : Text) (parts : List (Text × Value)) (s : Text) : Prop :=
  ∃ n, s <+: t.drop n ∧ ∀ l r v l', parts = l ++ (r, v) :: l' →
    n + s.length ≤ (joined l).length + r.length ∨
      (joined l).length + r.length + v.text.length ≤ n

-- The name of a value that comes after others. Those without a name are numbered.
def nameAfter (before : List Value) (v : Value) : Text :=
  v.label.getD ("value".toList ++ ofNat (before.countP (·.label.isNone)))

-- The last value with a name, without the quotes around it.
def IsLast (values : List Value) (k w : Text) : Prop :=
  ∃ l v l', values = l ++ v :: l' ∧ nameAfter l v = k ∧ unquote v.text = w ∧
    ∀ l₁ u l₂, l' = l₁ ++ u :: l₂ → nameAfter (l ++ v :: l₁) u ≠ k

variable {s t last last' : Text} {n i : Nat} {q : Place} {v : Value}
variable {parts parts' : List (Text × Value)}

@[simp]
theorem joined_nil : joined [] = [] :=
  rfl

@[simp]
theorem joined_cons (x : Text × Value) (parts : List (Text × Value)) :
    joined (x :: parts) = x.1 ++ (x.2.text ++ joined parts) := by
  simp [joined]

@[simp]
theorem joined_append (l l' : List (Text × Value)) : joined (l ++ l') = joined l ++ joined l' :=
  List.flatMap_append

theorem head?_ends (t : Text) (n : Nat) : (Dynamic.value.ends (placeAt t n)).head? =
    (value? (placeAt t n).before.head? (t.drop n)).map (Dynamic.past (placeAt t n)) := by
  refine Eq.trans ?_ (Dynamic.find_value (placeAt t n))
  rw [find_eq]
  cases Dynamic.value.ends (placeAt t n) <;> rfl

-- A value that the pattern matches at a place stands there in the text.
structure Stands (t : Text) (n : Nat) (v : Value) : Prop where
  pos     : 0 < v.length
  le      : n + v.length ≤ t.length
  ofMatch : Dynamic.ofMatch (placeAt t n) (Dynamic.past (placeAt t n) v) = v
  index   : (Dynamic.past (placeAt t n) v).index = n + v.length
  text    : t.drop n = v.lead ++ (v.text ++ t.drop (n + v.length))

theorem stands_of_value (h : value? (placeAt t n).before.head? (t.drop n) = some v) :
    Stands t n v := by
  have hp := Dynamic.prefix_of_value h
  have h₀ : 0 < v.length := Dynamic.length_pos (p := placeAt t n) h
  have hv : (v.lead ++ v.text).length = v.length := List.length_append
  have hl : n + v.length ≤ t.length := by
    have := hp.length_le
    rw [hv, List.length_drop] at this
    omega
  refine ⟨h₀, hl, Dynamic.ofMatch_past rfl hp, ?_, ?_⟩
  · rw [(Dynamic.place_past _ v).1, placeAt, Place.skip_skip]
    simp [Place.skip, Place.ofText, hl]
  · obtain ⟨r, hr⟩ := hp
    have hd : t.drop (n + v.length) = r := by
      rw [← List.drop_drop, ← hr, ← hv, List.drop_left]
    rw [hd, ← hr, List.append_assoc]

theorem stands_of_match (h : (Dynamic.value.ends (placeAt t n)).head? = some q)
    (hv : v = Dynamic.ofMatch (placeAt t n) q) : Stands t n v ∧ q.index = n + v.length := by
  obtain ⟨w, hw, rfl⟩ := Option.map_eq_some_iff.mp <| (head?_ends t n).symm.trans h
  have hs := stands_of_value hw
  obtain rfl : v = w := hv.trans hs.ofMatch
  exact ⟨hs, hs.index⟩

theorem ends_eq_nil_iff : Dynamic.value.ends (placeAt t n) = [] ↔
    value? (placeAt t n).before.head? (t.drop n) = none := by
  rw [← List.head?_eq_none_iff, head?_ends, Option.map_eq_none_iff]

theorem cut_nil (t : Text) : Cut t t.length [] [] := by
  have hc := Cut.rest (t := t) (n := t.length) fun i hi hl => ?_
  · rwa [List.drop_length] at hc
  · obtain rfl := Nat.le_antisymm hl hi
    refine ends_eq_nil_iff.mpr <| Option.eq_none_iff_forall_ne_some.mpr fun v hv => ?_
    have hs := stands_of_value hv
    have hp := hs.pos
    have hl := hs.le
    omega

theorem cut_cons (h : value? (placeAt t n).before.head? (t.drop n) = none) {d : Dissection}
    {c : Char} (hc : t.drop n = c :: t.drop (n + 1)) (hd : Cut t (n + 1) d.parts d.last) :
    Cut t n (d.cons c).parts (d.cons c).last := by
  have hn {i : Nat} (hi : n ≤ i) (h' : n + 1 ≤ i → Dynamic.value.ends (placeAt t i) = []) :
      Dynamic.value.ends (placeAt t i) = [] := by
    rcases Nat.eq_or_lt_of_le hi with rfl | hi
    case inl => exact ends_eq_nil_iff.mpr h
    case inr => exact h' hi
  obtain ⟨parts, last⟩ := d
  cases hd
  case rest h'                           =>
    have := Cut.rest (t := t) (n := n) fun i hi hl => hn hi fun hi => h' i hi hl
    rw [hc] at this
    exact this
  case value i q v parts hq hv hi h' hc' =>
    have := Cut.value (Nat.le_of_succ_le hi)
      (fun j hj hl => hn hj fun hj => h' j hj hl) hq hv hc'
    rw [hc, show i - n = i - (n + 1) + 1 by omega, List.take_succ_cons] at this
    exact this

theorem cut_value (h : value? (placeAt t n).before.head? (t.drop n) = some v)
    (hc : Cut t (n + v.length) parts last) : Cut t n ((v.lead, v) :: parts) last := by
  have hs := stands_of_value h
  have hq : (Dynamic.value.ends (placeAt t n)).head? = some (Dynamic.past (placeAt t n) v) := by
    rw [head?_ends, h, Option.map_some]
  have hc := Cut.value (Nat.le_refl n) (fun j hj hl => absurd hj (Nat.not_le.mpr hl)) hq
    hs.ofMatch.symm (hs.index ▸ hc)
  simpa using hc

-- The search goes on behind the characters that are left of a match.
theorem cut_go (skip : Nat) {before : Option Char} {u : Text} (hu : t.drop n = u)
    (hb : (placeAt t n).before.head? = before) (hn : n + skip ≤ t.length) :
    Cut t (n + skip) (dissect.go before skip u).parts (dissect.go before skip u).last := by
  induction u generalizing n skip before
  case nil         =>
    have hl : t.length ≤ n := List.drop_eq_nil_iff.mp hu
    obtain rfl : skip = 0 := by omega
    obtain rfl : n = t.length := Nat.le_antisymm hn hl
    exact cut_nil t
  case cons c u hi =>
    have hl : n < t.length := by
      have := congrArg List.length hu
      rw [List.length_drop, List.length_cons] at this
      omega
    have hu' : t.drop (n + 1) = u := by rw [← List.drop_drop, hu, List.drop_one, List.tail_cons]
    have hb' : (placeAt t (n + 1)).before.head? = some c := by
      rw [placeAt, ← Place.skip_skip]
      simp [Place.skip, Place.ofText, hu]
    cases skip
    case succ skip =>
      have hc := hi skip hu' hb' (by omega)
      rwa [Nat.add_assoc, Nat.add_comm 1] at hc
    case zero =>
      rw [Nat.add_zero]
      unfold dissect.go
      split
      case h_1 v hv =>
        rw [← hb, ← hu] at hv
        have hs := stands_of_value hv
        have hp := hs.pos
        have hl := hs.le
        have hc := hi (v.length - 1) hu' hb' (by omega)
        rw [show n + 1 + (v.length - 1) = n + v.length by omega] at hc
        exact cut_value hv hc
      case h_2 hv   =>
        rw [← hb, ← hu] at hv
        exact cut_cons hv (hu'.symm ▸ hu) (hi 0 hu' hb' hl)

theorem cut_dissect (t : Text) : Cut t 0 (dissect t).parts (dissect t).last :=
  cut_go (n := 0) 0 rfl rfl (Nat.zero_le _)

-- Runs and values are all of the text.
theorem Cut.eq_joined (h : Cut t n parts last) : t.drop n = joined parts ++ last := by
  induction h
  case rest                                      => rfl
  case value n i q v parts last hn h hq hv hc hi =>
    have ⟨hs, hi'⟩ := stands_of_match hq hv
    calc
      t.drop n = (t.drop n).take (i - n) ++ t.drop i := by
        rw [← Nat.add_sub_of_le hn, ← List.drop_drop, Nat.add_sub_cancel_left,
          List.take_append_drop]
      _ = (t.drop n).take (i - n) ++ (v.lead ++ (v.text ++ t.drop q.index)) := by
        rw [hs.text, hi']
      _ = (t.drop n).take (i - n) ++ (v.lead ++ (v.text ++ (joined parts ++ last))) := by
        rw [hi]
      _ = joined (((t.drop n).take (i - n) ++ v.lead, v) :: parts) ++ last := by
        simp

-- There is one way to cut a text.
theorem Cut.unique (h : Cut t n parts last) (h' : Cut t n parts' last') :
    parts' = parts ∧ last' = last := by
  have hn {i : Nat} {q : Place} (hq : (Dynamic.value.ends (placeAt t i)).head? = some q)
      (he : i ≤ t.length → Dynamic.value.ends (placeAt t i) = []) : False := by
    have hs := (stands_of_match hq rfl).1
    simp [he (Nat.le_of_add_right_le hs.le)] at hq
  induction h generalizing parts' last'
  case rest h =>
    cases h'
    case rest                => exact ⟨rfl, rfl⟩
    case value hq _ hi _ _ => exact (hn hq fun hl => h _ hi hl).elim
  case value n i q v parts last hi h hq hv hc ih =>
    cases h'
    case rest h'                               => exact (hn hq fun hl => h' _ hi hl).elim
    case value j q' v' parts' hq' hv' hj h' hc' =>
      -- Before the one match there is none, and the other one is there.
      obtain rfl : i = j := by
        rcases Nat.lt_trichotomy i j with hl | he | hl
        case inl     => exact (hn hq fun _ => h' i hi hl).elim
        case inr.inl => exact he
        case inr.inr => exact (hn hq' fun _ => h j hj hl).elim
      obtain rfl : q = q' := Option.some.inj (hq.symm.trans hq')
      obtain ⟨rfl, rfl⟩ := ih hc'
      exact ⟨by rw [hv, hv'], rfl⟩

variable {l : List Text} {r w k : Text} {values : List Value}

theorem longest?_eq_none (h : longest? l = none) : l = [] := by
  cases l
  case nil      => rfl
  case cons u l =>
    unfold longest? at h
    grind

theorem longest?_eq_some (h : longest? l = some s) : ∃ l₁ l₂, l = l₁ ++ s :: l₂ ∧
    (∀ u ∈ l₁, u.length < s.length) ∧ ∀ u ∈ l₂, u.length ≤ s.length := by
  induction l generalizing s
  case nil         => cases h
  case cons u l hi =>
    unfold longest? at h
    split at h
    case h_1 hl   =>
      obtain rfl := longest?_eq_none hl
      obtain rfl := Option.some.inj h
      exact ⟨[], [], rfl, by simp, by simp⟩
    case h_2 v hl =>
      obtain ⟨l₁, l₂, rfl, h₁, h₂⟩ := hi hl
      split at h
      case isTrue hu  =>
        obtain rfl := Option.some.inj h
        exact ⟨u :: l₁, l₂, rfl, List.forall_mem_cons.mpr ⟨hu, h₁⟩, h₂⟩
      case isFalse hu =>
        obtain rfl := Option.some.inj h
        have hv : ∀ w ∈ l₁ ++ v :: l₂, w.length ≤ v.length := by
          rw [List.forall_mem_append, List.forall_mem_cons]
          exact ⟨fun w hw => Nat.le_of_lt (h₁ w hw), Nat.le_refl _, h₂⟩
        exact ⟨[], _, rfl, by simp, fun w hw => Nat.le_trans (hv w hw) (Nat.not_lt.mp hu)⟩

theorem isLiteral (t : Text) (runs : List Text) : IsLiteral t runs
    ((longest? ((runs.map trimRun).filter (minRun ≤ ·.length))).getD t) := by
  cases h : longest? ((runs.map trimRun).filter (minRun ≤ ·.length))
  case none   =>
    refine .whole fun r hr => ?_
    have := List.filter_eq_nil_iff.mp (longest?_eq_none h) _ (List.mem_map_of_mem hr)
    simpa using this
  case some s =>
    rw [Option.getD_some]
    obtain ⟨l₁, l₂, hl, h₁, h₂⟩ := longest?_eq_some h
    obtain ⟨k₁, k, hk, rfl, hk₂⟩ := List.filter_eq_append_iff.mp hl
    obtain ⟨k₂, k₃, rfl, hs, hm, rfl⟩ := List.filter_eq_cons_iff.mp hk₂
    have hm : minRun ≤ s.length := by simpa using hm
    have hk' : runs.map trimRun = (k₁ ++ k₂) ++ s :: k₃ := by rw [hk, List.append_assoc]
    -- The runs that are too short are shorter than this one.
    have short {u : Text} {l : List Text} (hu : u ∈ l) :
        u ∈ l.filter (minRun ≤ ·.length) ∨ u.length < s.length := by
      by_cases hn : minRun ≤ u.length
      case pos => exact .inl <| List.mem_filter.mpr ⟨hu, by simpa using hn⟩
      case neg => exact .inr <| by omega
    refine .run hk' hm (List.forall_mem_append.mpr ⟨fun u hu => ?_, fun u hu => ?_⟩) fun u hu => ?_
    · exact (short hu).elim (h₁ u) id
    · have := hs u hu
      exact Nat.lt_of_lt_of_le (by simpa using this) hm
    · exact (short hu).elim (h₂ u) Nat.le_of_lt

-- At the ends of a run only blanks and punctuation are dropped.
theorem exists_trimRun (r : Text) : ∃ a b, r = a ++ (trimRun r ++ b) ∧
    ∀ c ∈ a ++ b, isBlank c = true ∨ isRunEdge c = true := by
  have ⟨a, b, hr, ha, hb⟩ := exists_trim r
  have ht := List.takeWhile_append_dropWhile (p := isRunEdge) (l := trim r)
  have ⟨e, he, hc⟩ := exists_dropEndWhile isRunEdge ((trim r).dropWhile isRunEdge)
  have ⟨a', b', hr', ha', hb'⟩ :=
    exists_trim (dropEndWhile isRunEdge ((trim r).dropWhile isRunEdge))
  refine ⟨a ++ ((trim r).takeWhile isRunEdge ++ a'), b' ++ (e ++ b), ?_, ?_⟩
  · calc
      r = a ++ (trim r ++ b) := hr
      _ = a ++ ((trim r).takeWhile isRunEdge ++ ((a' ++ (trimRun r ++ b')) ++ e) ++ b) := by
        rw [trimRun, ← hr', ← he, ht]
      _ = _ := by simp
  · have htw : ∀ c ∈ (trim r).takeWhile isRunEdge, isRunEdge c = true :=
      List.all_eq_true.mp List.all_takeWhile
    simp only [List.mem_append]
    rintro c ((h | h | h) | h | h | h)
    · exact .inl (ha c h)
    · exact .inr (htw c h)
    · exact .inl (ha' c h)
    · exact .inl (hb' c h)
    · exact .inr (hc c h)
    · exact .inl (hb c h)

theorem values_append (values : List Value) (v : Value) (n : Nat) (m : KeyMap Text) :
    Dissection.values.go n m (values ++ [v]) =
      KeyMap.insert (v.label.getD ("value".toList ++ ofNat (n + values.countP (·.label.isNone))))
        (unquote v.text) (Dissection.values.go n m values) := by
  induction values generalizing n m
  case nil              =>
    simp only [List.nil_append, Dissection.values.go]
    split <;> simp_all
  case cons u values hi =>
    simp only [List.cons_append, Dissection.values.go]
    split <;> simp_all [Nat.add_assoc, Nat.add_comm 1]

theorem values_go_concat (values : List Value) (v : Value) :
    Dissection.values.go 0 [] (values ++ [v]) =
      KeyMap.insert (nameAfter values v) (unquote v.text) (Dissection.values.go 0 [] values) := by
  rw [values_append, Nat.zero_add, nameAfter]

theorem isLast_concat (values : List Value) (v : Value) : IsLast (values ++ [v]) k w ↔
    nameAfter values v = k ∧ unquote v.text = w ∨ nameAfter values v ≠ k ∧ IsLast values k w := by
  constructor
  case mp  =>
    rintro ⟨l, u, l', hl, hk, hw, hn⟩
    rcases List.eq_nil_or_concat l' with rfl | ⟨l', x, rfl⟩
    case inl =>
      obtain ⟨rfl, hv⟩ := List.append_inj' hl rfl
      obtain rfl := List.singleton_inj.mp hv
      exact .inl ⟨hk, hw⟩
    case inr =>
      rw [List.concat_eq_append, ← List.cons_append, ← List.append_assoc] at hl
      obtain ⟨rfl, hv⟩ := List.append_inj' hl rfl
      obtain rfl := List.singleton_inj.mp hv
      refine .inr ⟨hn l' v [] (List.concat_eq_append ..), l, u, l', rfl, hk, hw, ?_⟩
      rintro l₁ y l₂ rfl
      exact hn l₁ y (l₂ ++ [v]) (by simp)
  case mpr =>
    rintro (⟨hk, hw⟩ | ⟨hv, l, u, l', rfl, hk, hw, hn⟩)
    case inl => exact ⟨values, v, [], rfl, hk, hw, by simp⟩
    case inr =>
      refine ⟨l, u, l' ++ [v], by simp, hk, hw, fun l₁ y l₂ hl => ?_⟩
      rcases List.eq_nil_or_concat l₂ with rfl | ⟨l₂, x, rfl⟩
      case inl =>
        obtain ⟨rfl, hy⟩ := List.append_inj' hl rfl
        obtain rfl := List.singleton_inj.mp hy
        exact hv
      case inr =>
        rw [List.concat_eq_append, ← List.cons_append, ← List.append_assoc] at hl
        exact hn l₁ y l₂ (List.append_inj' hl rfl).1

theorem get?_values (values : List Value) (k w : Text) :
    KeyMap.get? k (Dissection.values.go 0 [] values) = some w ↔ IsLast values k w := by
  induction values using List.reverseRecOn
  case nil                => simp [Dissection.values.go, KeyMap.get?, IsLast]
  case append_singleton values v hi =>
    rw [values_go_concat, isLast_concat]
    by_cases hk : nameAfter values v = k
    case pos => rw [hk, KeyMap.get?_insert_self]; simp
    case neg => rw [KeyMap.get?_insert_ne (Ne.symm hk), hi]; simp [hk]

theorem sorted_values (values : List Value) :
    KeyMap.Sorted (Dissection.values.go 0 [] values) := by
  induction values using List.reverseRecOn
  case nil                          => exact .nil
  case append_singleton values v hi => exact values_go_concat values v ▸ hi.insert _ _

-- Around a run the values are those before it and those behind it.
theorem exists_split (hr : r ∈ parts.map (·.1) ++ [last]) : ∃ l₀ l₁ u, parts = l₀ ++ l₁ ∧
    joined l₁ ++ last = r ++ u ∧
    ∀ l r' v l', l₁ = l ++ (r', v) :: l' → r.length ≤ (joined l).length + r'.length := by
  rcases List.mem_append.mp hr with hr | hr
  case inl =>
    obtain ⟨x, hx, rfl⟩ := List.mem_map.mp hr
    obtain ⟨l₀, l₁, rfl⟩ := List.mem_iff_append.mp hx
    refine ⟨l₀, x :: l₁, x.2.text ++ (joined l₁ ++ last), rfl, by simp, fun l r' v l' h => ?_⟩
    cases l
    case nil      => simp [(List.cons.inj h).1]
    case cons y l =>
      rw [← (List.cons.inj h).1, joined_cons, List.length_append]
      omega
  case inr =>
    obtain rfl := List.mem_singleton.mp hr
    exact ⟨parts, [], [], by simp, by simp, by simp⟩

-- A text inside a run stands before or behind every value.
theorem apart_of_run {a b : Text} (hr : a ++ (s ++ b) ∈ parts.map (·.1) ++ [last]) :
    StandsApart (joined parts ++ last) parts s := by
  obtain ⟨l₀, l₁, u, rfl, hu, hl⟩ := exists_split hr
  refine ⟨(joined l₀).length + a.length, ⟨b ++ u, ?_⟩, fun l r v l' h => ?_⟩
  · rw [joined_append, List.append_assoc, hu]
    simp
  · rcases List.append_eq_append_iff.mp h with ⟨x, rfl, hx⟩ | ⟨x, rfl, hx⟩
    case inl =>
      have := hl x r v l' hx
      simp only [List.length_append, joined_append] at this ⊢
      exact .inl (by omega)
    case inr =>
      cases x
      case nil      =>
        have := hl [] r v l' hx.symm
        simp only [List.length_append, joined_append, joined_nil, List.length_nil] at this ⊢
        exact .inl (by omega)
      case cons y x =>
        rw [← (List.cons.inj hx).1]
        simp only [List.length_append, joined_append, joined_cons]
        exact .inr (by omega)

theorem IsLiteral.cases {runs : List Text} (h : IsLiteral t runs s) :
    (∃ r ∈ runs, s = trimRun r) ∨ s = t ∧ ∀ r ∈ runs, (trimRun r).length < minRun := by
  cases h
  case whole h           => exact .inr ⟨rfl, h⟩
  case run l l' h hs _ _ =>
    obtain ⟨r, hr, hs⟩ := List.mem_map.mp (h ▸ List.mem_append_right l List.mem_cons_self)
    exact .inl ⟨r, hr, hs.symm⟩

-- What the analysis of a message says of its text.
structure Describes (a : Analysis) (t : Text) (parts : List (Text × Value)) (last : Text) :
    Prop where
  cut     : Cut t 0 parts last
  unique  : ∀ parts' last', Cut t 0 parts' last' → parts' = parts ∧ last' = last
  whole   : t = joined parts ++ last
  literal : IsLiteral t (parts.map (·.1) ++ [last]) a.staticText
  inside  : a.staticText <:+: t
  apart   : (∃ r ∈ parts.map (·.1) ++ [last], minRun ≤ (trimRun r).length) →
    StandsApart t parts a.staticText
  values  : ∀ k w, KeyMap.get? k a.values = some w ↔ IsLast (parts.map (·.2)) k w
  sorted  : KeyMap.Sorted a.values

theorem analyze_describes (raw : Text) :
    ∃ parts last, Describes (analyze raw) (trim (stripEscapes raw)) parts last := by
  let t := trim (stripEscapes raw)
  let d := dissect t
  have hc : Cut t 0 d.parts d.last := cut_dissect t
  have hj : t = joined d.parts ++ d.last := hc.eq_joined
  have hl : IsLiteral t d.runs (analyze raw).staticText := isLiteral t d.runs
  have hr (h : ∃ r ∈ d.runs, (analyze raw).staticText = trimRun r) :
      StandsApart t d.parts (analyze raw).staticText := by
    obtain ⟨r, hr, hs⟩ := h
    obtain ⟨a, b, h, _⟩ := exists_trimRun r
    rw [h, ← hs] at hr
    exact hj ▸ apart_of_run hr
  refine ⟨d.parts, d.last, hc, fun _ _ => hc.unique, hj, hl, ?_, fun ⟨r, hm, hn⟩ => ?_,
    get?_values _, sorted_values _⟩
  · rcases hl.cases with h | ⟨h, _⟩
    case inl =>
      obtain ⟨n, hn, _⟩ := hr h
      exact hn.isInfix.trans (List.drop_suffix n t).isInfix
    case inr => exact h ▸ List.infix_rfl
  · rcases hl.cases with h | ⟨_, h⟩
    case inl => exact hr h
    case inr => exact absurd hn (Nat.not_le.mpr (h r hm))

example : analyze "Processed order count=42 for user \"ann\" in 17ms".toList =
    ⟨"Processed order count".toList,
      [("count".toList, "42".toList), ("value0".toList, "ann".toList)]⟩ := by
  decide +kernel

end Lexical

end LogOrigin
