import Mathlib.Data.List.Basic
import LogOrigin.Proofs.Text.Pattern

-- The matches of a text with something behind it: a pattern that cannot go on there has the matches
-- that it has without.

namespace LogOrigin.Text.Pattern

-- The same part of a text, and the same place in it, with more text behind.
def Part.extend (p : Part) (u : Text) : Part :=
  ⟨p.text ++ u, p.rest ++ u⟩

def Place.extend (p : Place) (u : Text) : Place :=
  ⟨p.index, p.before, p.after ++ u, p.kept.map fun k => (k.1, k.2.extend u)⟩

-- The matches are the same with that text behind.
def Ignores (u : Text) (a : Pattern) : Prop :=
  ∀ p, a.ends (p.extend u) = (a.ends p).map (·.extend u)

-- Whether a pattern can take a character, or tells it from the end of the text.
def sees (c : Char) : Pattern → Bool
  | empty    => false
  | start    => false
  | finish   => true
  | boundary => isWord c
  | char f   => f c
  | run _ f  => f c
  | shyRun f => f c
  | seq a b  => a.sees c || b.sees c
  | alt a b  => a.sees c || b.sees c
  | many a   => a.sees c
  | keep _ a => a.sees c

variable {a b : Pattern} {p q : Place} {u : Text} {f : Char → Bool} {n : Nat} {slot : Slot}

theorem Part.toText_extend (p : Part) (u : Text) : (p.extend u).toText = p.toText := by
  simp only [toText, extend, List.length_append, Nat.add_sub_add_right]
  exact List.take_append_of_le_length (Nat.sub_le _ _)

theorem Place.kept?_extend (p : Place) (u : Text) : (p.extend u).kept? = p.kept? := by
  funext s
  simp only [kept?, extend, List.find?_map, Option.map_map]
  congr 1
  funext k
  exact k.2.toText_extend u

-- Where nothing is left of the text but what stands behind it, these patterns match nothing.
def StopsIn (u : Text) (a : Pattern) : Prop :=
  ∀ p : Place, p.after <:+ u → a.ends p = []

-- The matches that go on from places with that text behind are those without it.
theorem Ignores.flatMap_ends (h : Ignores u a) (l : List Place) :
    (l.map (·.extend u)).flatMap a.ends = (l.flatMap a.ends).map (·.extend u) := by
  rw [List.flatMap_map, List.map_flatMap]
  exact congrArg (fun g => l.flatMap g) (funext h)

theorem map_extend_ite (c : Prop) [Decidable c] (p : Place) (u : Text) (l : List Place) :
    (if c then p :: l else l).map (·.extend u) =
      if c then p.extend u :: l.map (·.extend u) else l.map (·.extend u) := by
  split <;> rfl

theorem go_nil (kept : List (Slot × Part)) (n i : Nat) (before : Text) (acc : List Place) :
    runPlaces.go f kept n acc i before [] =
      if n = 0 then ⟨i, before, [], kept⟩ :: acc else acc :=
  rfl

theorem go_cons (kept : List (Slot × Part)) (n i : Nat) (before : Text) (acc : List Place)
    (c : Char) (t : Text) :
    runPlaces.go f kept n acc i before (c :: t) =
      if f c then
        runPlaces.go f kept (n - 1) (if n = 0 then ⟨i, before, c :: t, kept⟩ :: acc else acc) (i + 1)
          (c :: before) t
      else if n = 0 then ⟨i, before, c :: t, kept⟩ :: acc else acc :=
  rfl

-- What a place has before it and behind it is together the whole text.
def Place.total (p : Place) : Nat :=
  p.index + p.after.length

theorem total_of_mem_runPlaces (h : q ∈ runPlaces f n p) : q.total = p.total := by
  have here {n : Nat} {p : Place} {acc : List Place} (h : q ∈ if n = 0 then p :: acc else acc) :
      q ∈ acc ∨ q.total = p.total := by
    split at h
    case isFalse => exact .inl h
    case isTrue  => exact (List.mem_cons.mp h).symm.imp_right (congrArg Place.total)
  have go {kept : List (Slot × Part)} {n i : Nat} {acc : List Place} {before after : Text}
      (h : q ∈ runPlaces.go f kept n acc i before after) :
      q ∈ acc ∨ q.total = i + after.length := by
    induction after generalizing n i acc before
    case nil         => exact here h
    case cons c t hi =>
      rw [go_cons] at h
      split at h
      case isFalse => exact here h
      case isTrue  =>
        rcases hi h with h | h
        case inl => exact here h
        case inr => exact .inr (by rw [h, List.length_cons]; omega)
  exact (go h).resolve_left List.not_mem_nil

theorem total_of_mem_manyPlaces {step : Place → List Place}
    (h : ∀ {p q}, q ∈ step p → q.total = p.total) {fuel : Nat} (hq : q ∈ manyPlaces step fuel p) :
    q.total = p.total := by
  induction fuel generalizing p
  case zero         => rw [List.mem_singleton.mp hq]
  case succ fuel hi =>
    rw [manyPlaces, List.mem_append, List.mem_flatMap] at hq
    rcases hq with ⟨m, hm, hq⟩ | hq
    case inr => rw [List.mem_singleton.mp hq]
    case inl =>
      split at hq
      case isTrue  => exact (hi hq).trans (h hm)
      case isFalse => cases hq

theorem total_of_mem_ends (h : q ∈ a.ends p) : q.total = p.total := by
  have single {c : Prop} [Decidable c] {p q : Place} (h : q ∈ if c then [p] else []) :
      q.total = p.total := by
    split at h
    case isTrue  => rw [List.mem_singleton.mp h]
    case isFalse => cases h
  induction a generalizing p q
  case empty          => rw [List.mem_singleton.mp h]
  case start          => exact single h
  case finish         => exact single h
  case boundary       => exact single h
  case char f         =>
    obtain ⟨⟨c, m⟩, hn, rfl⟩ := Option.map_eq_some_iff.mp (Option.mem_toList.mp h)
    have hn := (Option.filter_eq_some_iff.mp hn).1
    unfold Place.next? at hn
    split at hn
    case h_1    => cases hn
    case h_2 ht =>
      cases hn
      simp only [Place.total, ht, List.length_cons]
      omega
  case run n f        => exact total_of_mem_runPlaces h
  case shyRun f       => exact total_of_mem_runPlaces (List.mem_reverse.mp h)
  case seq a b ha hb  =>
    obtain ⟨m, hm, hq⟩ := List.mem_flatMap.mp h
    exact (hb hq).trans (ha hm)
  case alt a b ha hb  =>
    rcases List.mem_append.mp h with h | h
    case inl => exact ha h
    case inr => exact hb h
  case many a ha      => exact total_of_mem_manyPlaces ha h
  case keep slot a ha =>
    obtain ⟨m, hm, rfl⟩ := List.mem_map.mp h
    have ht : m.total = p.total := ha hm
    exact ht

theorem length_lt_of_mem_ends (h : q ∈ a.ends p) (hi : p.index < q.index) :
    q.after.length < p.after.length := by
  have := total_of_mem_ends h
  simp only [Place.total] at this
  omega

-- No more repetitions are tried than there are characters left.
theorem manyPlaces_succ {fuel : Nat} (hp : p.after.length ≤ fuel) :
    manyPlaces a.ends (fuel + 1) p = manyPlaces a.ends fuel p := by
  induction fuel generalizing p
  case zero =>
    have hn : ∀ q ∈ a.ends p, ¬p.index < q.index := by
      intro q hq hi
      have := length_lt_of_mem_ends hq hi
      omega
    have hf : (a.ends p).flatMap (fun q =>
        if p.index < q.index then manyPlaces a.ends 0 q else []) = [] :=
      List.flatMap_eq_nil_iff.mpr fun q hq => if_neg (hn q hq)
    rw [manyPlaces, manyPlaces, hf, List.nil_append]
  case succ fuel hi =>
    rw [manyPlaces, manyPlaces]
    refine congrArg (· ++ [p]) (List.flatMap_congr fun q hq => ?_)
    split
    case isFalse   => rfl
    case isTrue hl =>
      have := length_lt_of_mem_ends hq hl
      exact hi (by omega)

namespace StopsIn

theorem char (h : ∀ c ∈ u, f c = false) : StopsIn u (char f) := by
  rintro ⟨i, before, after, kept⟩ hp
  cases after
  case nil      => rfl
  case cons c t => simp [ends, Place.next?, Option.filter, h c (hp.subset List.mem_cons_self)]

theorem seq (h : StopsIn u a) (b : Pattern) : StopsIn u (.seq a b) := by
  intro p hp
  rw [ends, h p hp, List.flatMap_nil]

theorem flatMap_ite (h : StopsIn u a) (hp : p.after <:+ u) {c : Prop} [Decidable c]
    (l : List Place) : (if c then p :: l else l).flatMap a.ends = l.flatMap a.ends := by
  split
  case isTrue  => rw [List.flatMap_cons, h p hp, List.nil_append]
  case isFalse => rfl

-- So it matches nothing behind a run in that text either.
theorem flatMap_go (h : StopsIn u a) {v : Text} (hv : v <:+ u) (kept : List (Slot × Part))
    (n i : Nat) (before : Text) (acc : List Place) :
    (runPlaces.go f kept n acc i before v).flatMap a.ends = acc.flatMap a.ends := by
  induction v generalizing n i before acc
  case nil         => rw [go_nil, h.flatMap_ite hv]
  case cons c v hi =>
    rw [go_cons]
    split
    case isTrue  => rw [hi ((List.suffix_cons c v).trans hv), h.flatMap_ite hv]
    case isFalse => rw [h.flatMap_ite hv]

end StopsIn

namespace Ignores

theorem char (h : ∀ c ∈ u.head?, f c = false) : Ignores u (char f) := by
  rintro ⟨i, before, after, kept⟩
  cases after
  case cons c t => by_cases hc : f c <;> simp [ends, Place.extend, Place.next?, Option.filter, hc]
  case nil =>
    cases u
    case nil      => rfl
    case cons c u => simp [ends, Place.extend, Place.next?, Option.filter, h c rfl]

theorem start : Ignores u start :=
  fun p => (map_extend_ite (p.before.isEmpty = true) p u []).symm

theorem boundary (h : ∀ c ∈ u.head?, isWord c = false) : Ignores u boundary := by
  intro p
  have hb : isBoundary p.before.head? (p.after ++ u).head? =
      isBoundary p.before.head? p.after.head? := by
    cases p.after
    case cons => rfl
    case nil  =>
      cases u
      case nil      => rfl
      case cons c u => simp [isBoundary, h c rfl]
  have he : isBoundary (p.extend u).before.head? (p.extend u).after.head? =
      isBoundary p.before.head? p.after.head? := hb
  simp only [ends]
  rw [he, map_extend_ite]
  rfl

theorem run (h : ∀ c ∈ u.head?, f c = false) (n : Nat) : Ignores u (run n f) := by
  have go (kept : List (Slot × Part)) (n i : Nat) (before after : Text) (acc : List Place) :
      runPlaces.go f (kept.map fun k => (k.1, k.2.extend u)) n (acc.map (·.extend u)) i before
        (after ++ u) = (runPlaces.go f kept n acc i before after).map (·.extend u) := by
    induction after generalizing n i before acc
    case nil =>
      rw [List.nil_append, go_nil, map_extend_ite]
      cases u
      case nil      => rfl
      case cons c u =>
        rw [go_cons, h c rfl, if_neg Bool.false_ne_true]
        rfl
    case cons c t hi =>
      rw [List.cons_append, go_cons, go_cons]
      cases f c
      case false => exact (map_extend_ite (n = 0) ⟨i, before, c :: t, kept⟩ u acc).symm
      case true  =>
        rw [if_pos rfl, if_pos rfl, ← hi, map_extend_ite]
        rfl
  exact fun p => go p.kept n p.index p.before p.after []

theorem shyRun (h : ∀ c ∈ u.head?, f c = false) : Ignores u (shyRun f) := by
  intro p
  have hr := run h 0 p
  simp only [ends] at hr ⊢
  rw [hr, List.map_reverse]

theorem seq (ha : Ignores u a) (hb : Ignores u b) : Ignores u (.seq a b) := by
  intro p
  simp only [ends]
  rw [ha p, hb.flatMap_ends]

theorem alt (ha : Ignores u a) (hb : Ignores u b) : Ignores u (.alt a b) := by
  intro p
  simp only [ends]
  rw [ha p, hb p, List.map_append]

theorem manyPlaces_extend (ha : Ignores u a) {m k : Nat} (hm : p.after.length < m)
    (hk : p.after.length < k) :
    manyPlaces a.ends m (p.extend u) = (manyPlaces a.ends k p).map (·.extend u) := by
  induction m generalizing k p
  case zero      => cases hm
  case succ m hi =>
    obtain ⟨k, rfl⟩ := Nat.exists_eq_add_one.mpr (Nat.zero_lt_of_lt hk)
    rw [manyPlaces, manyPlaces, ha p, List.flatMap_map, List.map_append, List.map_flatMap]
    refine congrArg (· ++ [p.extend u]) (List.flatMap_congr fun q hq => ?_)
    by_cases hl : p.index < q.index
    case pos =>
      have := length_lt_of_mem_ends hq hl
      have he := hi (p := q) (k := k) (by omega) (by omega)
      simpa [Place.extend, hl] using he
    case neg => simp [Place.extend, hl]

theorem many (ha : Ignores u a) : Ignores u (.many a) := by
  intro p
  have hl : p.after.length ≤ (p.extend u).after.length := by simp [Place.extend]
  rw [ends, ends, ← manyPlaces_succ (Nat.le_refl _), ← manyPlaces_succ (Nat.le_refl p.after.length)]
  exact manyPlaces_extend ha (Nat.lt_succ_of_le hl) (Nat.lt_succ_self _)

theorem keep (ha : Ignores u a) (slot : Slot) : Ignores u (.keep slot a) := by
  intro p
  simp only [ends]
  rw [ha p, List.map_map, List.map_map]
  rfl

-- A pattern can go on behind a text only at a character that it sees.
theorem of_sees (h : ∀ c ∈ u.head?, a.sees c = false) : Ignores u a := by
  induction a
  case empty          => exact fun _ => rfl
  case start          => exact start
  case finish         =>
    cases u
    case cons c u => cases h c rfl
    case nil      =>
      intro p
      have he : (p.extend []).after = p.after := List.append_nil _
      simp only [ends]
      rw [he, map_extend_ite]
      rfl
  case boundary       => exact boundary h
  case char f         => exact char h
  case run n f        => exact run h n
  case shyRun f       => exact shyRun h
  case seq a b ha hb  =>
    simp only [sees, Bool.or_eq_false_iff] at h
    exact (ha fun c hc => (h c hc).1).seq (hb fun c hc => (h c hc).2)
  case alt a b ha hb  =>
    simp only [sees, Bool.or_eq_false_iff] at h
    exact (ha fun c hc => (h c hc).1).alt (hb fun c hc => (h c hc).2)
  case many a ha      => exact (ha h).many
  case keep slot a ha => exact (ha h).keep slot

-- A run may go on behind the text if nothing can follow it there.
theorem run_seq (hb : Ignores u b) (hs : StopsIn u b) (n : Nat) (f : Char → Bool) :
    Ignores u (.seq (.run n f) b) := by
  have go (kept : List (Slot × Part)) (n i : Nat) (before after : Text) (acc : List Place) :
      (runPlaces.go f (kept.map fun k => (k.1, k.2.extend u)) n (acc.map (·.extend u)) i before
        (after ++ u)).flatMap b.ends =
      ((runPlaces.go f kept n acc i before after).flatMap b.ends).map (·.extend u) := by
    induction after generalizing n i before acc
    case nil         =>
      rw [List.nil_append, hs.flatMap_go (List.suffix_refl u), go_nil,
        hs.flatMap_ite List.nil_suffix, hb.flatMap_ends]
    case cons c t hi =>
      have he := map_extend_ite (n = 0) ⟨i, before, c :: t, kept⟩ u acc
      rw [List.cons_append, go_cons, go_cons]
      cases f c
      case true  =>
        rw [if_pos rfl, if_pos rfl, ← hi, he]
        rfl
      case false =>
        rw [if_neg Bool.false_ne_true, if_neg Bool.false_ne_true, ← hb.flatMap_ends, he]
        rfl
  exact fun p => go p.kept n p.index p.before p.after []

-- The same with something optional in front that ends with a run.
theorem option_run_seq (ha : Ignores u a) (hb : Ignores u b) (hs : StopsIn u b) (n : Nat)
    (f : Char → Bool) : Ignores u (.seq (option (.seq a (.run n f))) b) := by
  have hr := ha.seq (run_seq hb hs n f)
  intro p
  have he (p : Place) : (Pattern.seq (option (.seq a (.run n f))) b).ends p =
      (Pattern.seq a (.seq (.run n f) b)).ends p ++ b.ends p := by
    simp [option, ends, List.flatMap_assoc]
  rw [he, he, List.map_append, hr, hb]

end Ignores

-- The matches keep the same parts with that text behind, wherever they end.
def Keeps (u : Text) (a : Pattern) : Prop :=
  ∀ p, (a.ends (p.extend u)).map Place.kept? = (a.ends p).map Place.kept?

theorem Ignores.keeps (h : Ignores u a) : Keeps u a := by
  intro p
  rw [h p, List.map_map]
  exact List.map_congr_left fun q _ => q.kept?_extend u

theorem Ignores.seq_keeps (ha : Ignores u a) (hb : Keeps u b) : Keeps u (.seq a b) := by
  intro p
  simp only [ends]
  rw [ha p, List.flatMap_map, List.map_flatMap, List.map_flatMap]
  exact congrArg (fun g => (a.ends p).flatMap g) (funext hb)

-- A run to the end of the text goes on to the end of what stands behind.
theorem Keeps.run_finish (h : ∀ c ∈ u, f c = true) : Keeps u (.seq (.run 0 f) .finish) := by
  have inside (l : List Place) (i : Nat) (before : Text) (c : Char) (t : Text)
      (kept : List (Slot × Part)) :
      (Place.mk i before (c :: t) kept :: l).flatMap finish.ends = l.flatMap finish.ends := rfl
  have go (kept : List (Slot × Part)) (i : Nat) (before t : Text) (acc : List Place) :
      ((runPlaces.go f kept 0 acc i before t).flatMap finish.ends).map Place.kept? =
        (if t.all f then [Place.kept? ⟨0, [], [], kept⟩] else []) ++
          (acc.flatMap finish.ends).map Place.kept? := by
    induction t generalizing i before acc
    case nil         => rfl
    case cons c t hi =>
      rw [go_cons, if_pos rfl, List.all_cons]
      cases f c
      case true  => rw [if_pos rfl, hi, inside, Bool.true_and]
      case false => rw [if_neg Bool.false_ne_true, inside, Bool.false_and]; rfl
  intro p
  have hu : (p.after ++ u).all f = p.after.all f := by
    rw [List.all_append, List.all_eq_true.mpr h, Bool.and_true]
  calc
    _ = (if (p.after ++ u).all f then [(p.extend u).kept?] else []) ++ [] :=
      go (p.extend u).kept p.index p.before (p.after ++ u) []
    _ = (if p.after.all f then [p.kept?] else []) ++ []                    := by
      rw [hu, p.kept?_extend]
    _ = _                                                                  :=
      (go p.kept p.index p.before p.after []).symm

theorem Keeps.match? (h : Keeps u a) (t : Text) :
    (a.match? (t ++ u)).map Place.kept? = (a.match? t).map Place.kept? := by
  have ht : Place.ofText (t ++ u) = (Place.ofText t).extend u := rfl
  rw [match?_eq, match?_eq, ht, ← List.head?_map, ← List.head?_map, h]

theorem sees_of_accepts {t : Text} (h : a.Accepts t) : ∀ c ∈ t, a.sees c = true := by
  induction h
  case empty | start | finish | boundary | stop => simp
  case char f c h         => simpa [sees] using h
  case run n f t _ h      => exact h
  case shyRun f t h       => exact h
  case seq ha hb          =>
    intro c hc
    simp only [sees, Bool.or_eq_true]
    exact (List.mem_append.mp hc).imp (ha c) (hb c)
  case left h             => exact fun c hc => by simp [sees, h c hc]
  case right h            => exact fun c hc => by simp [sees, h c hc]
  case more ha h          => exact fun c hc => (List.mem_append.mp hc).elim (ha c) (h c)
  case keep h             => exact h

theorem accepts_char {t : Text} (h : (char f).Accepts t) : ∃ c, t = [c] ∧ f c = true := by
  cases h
  case char c hc => exact ⟨c, rfl, hc⟩

theorem accepts_inOrder_cons {l : List Pattern} {t : Text} (h : (inOrder (a :: l)).Accepts t) :
    ∃ s v, t = s ++ v ∧ a.Accepts s ∧ (inOrder l).Accepts v := by
  cases l
  case nil      => exact ⟨t, [], by simp, h, .empty⟩
  case cons b l =>
    cases h
    case seq s v hs hv => exact ⟨s, v, rfl, hs, hv⟩

theorem accepts_inOrder_append {l r : List Pattern} {t : Text}
    (h : (inOrder (l ++ r)).Accepts t) : ∃ s v, t = s ++ v ∧ (inOrder r).Accepts v := by
  induction l generalizing t
  case nil         => exact ⟨[], t, rfl, h⟩
  case cons a l hi =>
    obtain ⟨s, v, rfl, _, hv⟩ := accepts_inOrder_cons h
    obtain ⟨s', v', rfl, hv'⟩ := hi hv
    exact ⟨s ++ s', v', by rw [List.append_assoc], hv'⟩

theorem exists_accepts_of_mem {l : List Pattern} {t : Text} (h : (inOrder l).Accepts t) :
    ∀ c ∈ t, ∃ b ∈ l, ∃ v, b.Accepts v ∧ c ∈ v := by
  induction l generalizing t
  case nil         =>
    cases h
    simp
  case cons a l hi =>
    obtain ⟨s, v, rfl, hs, hv⟩ := accepts_inOrder_cons h
    intro c hc
    rcases List.mem_append.mp hc with hc | hc
    case inl => exact ⟨a, List.mem_cons_self, s, hs, hc⟩
    case inr =>
      obtain ⟨b, hb, h⟩ := hi hv c hc
      exact ⟨b, List.mem_cons_of_mem a hb, h⟩

theorem after_of_finish {l : List Pattern} (h : q ∈ (inOrder (l ++ [finish])).ends p) :
    q.after = [] := by
  have hf {p q : Place} (h : q ∈ finish.ends p) : q.after = [] := by
    simp only [ends] at h
    split at h
    case isFalse   => cases h
    case isTrue he => rw [List.mem_singleton.mp h, List.isEmpty_iff.mp he]
  induction l generalizing p
  case nil         => exact hf h
  case cons a l hi =>
    have hs : inOrder (a :: l ++ [finish]) = .seq a (inOrder (l ++ [finish])) := by
      cases l <;> rfl
    rw [hs] at h
    obtain ⟨m, _, hq⟩ := List.mem_flatMap.mp h
    exact hi hq

-- What stands at the end of a text and has no character of a class stands behind every such character.
theorem suffix_of_cons {s w : Text} {d : Char} (hu : u <:+ s ++ d :: w) (hf : ∀ c ∈ u, f c = false)
    (hd : f d = true) : u <:+ w := by
  have hn : d ∉ u := fun h => by simp [hf d h] at hd
  have hw : d :: w <:+ s ++ d :: w := ⟨s, rfl⟩
  have hc : u <:+ d :: w := (List.suffix_or_suffix_of_suffix hu hw).resolve_right
    fun h => hn (h.subset List.mem_cons_self)
  exact (List.suffix_cons_iff.mp hc).resolve_left fun h => hn (h ▸ List.mem_cons_self)

-- After the last character of a class, only what the patterns up to the end see can stand. So a text
-- without such characters, whose first character none of those patterns sees, does not stand there.
theorem match?_eq_none {l r : List Pattern} (t : Text) (hu : u ≠ []) (hf : ∀ c ∈ u, f c = false)
    (hr : ∀ c ∈ u.head?, ∀ b ∈ r, b.sees c = false) :
    (inOrder (l ++ (.char f :: r) ++ [finish])).match? (t ++ u) = none := by
  rw [match?_eq, List.head?_eq_none_iff, List.eq_nil_iff_forall_not_mem]
  intro q hq
  obtain ⟨s, hs, ht⟩ := (leads_of_mem_ends hq).taken
  have ht : t ++ u = s := by
    rw [after_of_finish hq, List.append_nil] at ht
    exact ht
  rw [List.append_assoc, List.cons_append] at hs
  obtain ⟨s, v, rfl, hv⟩ := accepts_inOrder_append hs
  obtain ⟨x, w, rfl, hx, hw⟩ := accepts_inOrder_cons hv
  obtain ⟨d, rfl, hd⟩ := accepts_char hx
  have huw : u <:+ w := suffix_of_cons ⟨t, ht⟩ hf hd
  obtain ⟨c, u, rfl⟩ := List.exists_cons_of_ne_nil hu
  obtain ⟨b, hb, v, hv, hc⟩ := exists_accepts_of_mem hw c (huw.subset List.mem_cons_self)
  rcases List.mem_append.mp hb with hb | hb
  case inl =>
    have := hr c rfl b hb
    simp [sees_of_accepts hv c hc] at this
  case inr =>
    obtain rfl := List.mem_singleton.mp hb
    cases hv
    cases hc

end LogOrigin.Text.Pattern
