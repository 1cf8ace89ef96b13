import LogOrigin.Proofs.Text.Pattern
import LogOrigin.Proofs.Text.Trim
import LogOrigin.Text.Scan

-- Patterns that need no second try: what such a pattern finds at a place is what goes on after a
-- number of characters that is known beforehand. That number is what a reader takes.

namespace LogOrigin.Text

namespace Reader

variable {r s : Reader}

-- What is taken and what follows it make up the text.
def Exact (r : Reader) : Prop :=
  ∀ t a u, r t = some (a, u) → t = a ++ u

def andThen (r s : Reader) : Reader := fun t =>
  (r t).bind fun x => (s x.2).map fun y => (x.1 ++ y.1, y.2)

-- Takes all characters of a class, or none.
def span (f : Char → Bool) : Reader := fun t =>
  some (t.takeWhile f, t.dropWhile f)

theorem takeShape_cons (f : Char → Bool) (l : List (Char → Bool)) :
    takeShape (f :: l) = andThen (takeShape [f]) (takeShape l) := by
  funext t
  cases t
  case nil      => rfl
  case cons c t =>
    cases hc : f c
    case false => simp [andThen, takeShape, hc]
    case true  => cases ht : takeShape l t <;> simp [andThen, takeShape, hc, ht]

theorem exact_shape (l : List (Char → Bool)) : Exact (takeShape l) :=
  fun _ _ _ => takeShape_append

theorem exact_span (f : Char → Bool) : Exact (span f) := by
  rintro t _ _ ⟨⟩
  exact List.takeWhile_append_dropWhile.symm

theorem exact_run (f : Char → Bool) : Exact (takeRun f) :=
  fun _ _ _ h => (takeRun_eq_some_iff.mp h).1

theorem Exact.andThen (hr : r.Exact) (hs : s.Exact) : (r.andThen s).Exact := by
  intro t a u h
  obtain ⟨x, hx, h⟩ := Option.bind_eq_some_iff.mp h
  obtain ⟨y, hy, h⟩ := Option.map_eq_some_iff.mp h
  cases h
  rw [hr _ _ _ hx, hs _ _ _ hy, List.append_assoc]

theorem Exact.orElse (hr : r.Exact) (hs : s.Exact) : Exact fun t => (r t).orElse fun _ => s t := by
  intro t a u h
  cases hx : r t
  case none   => exact hs t a u (by simpa [hx] using h)
  case some x => exact hr t a u (by simpa [hx] using h)

end Reader

namespace Pattern

variable {α : Type} {a b : Pattern} {f g : Char → Bool} {p q : Place} {k : Place → Option α}
variable {x y : Option Nat} {n i : Nat} {c : Char} {s t u : Text} {r next : Reader}

namespace Place

-- The place a number of characters farther on, or the end of the text.
def skip (n : Nat) (p : Place) : Place :=
  ⟨p.index + (p.after.take n).length, (p.after.take n).reverse ++ p.before, p.after.drop n, p.kept⟩

@[simp]
theorem skip_zero (p : Place) : p.skip 0 = p :=
  rfl

@[simp]
theorem skip_skip (m n : Nat) (p : Place) : (p.skip m).skip n = p.skip (m + n) := by
  simp only [skip, List.take_add, List.drop_drop, List.length_append, List.reverse_append,
    List.append_assoc, Nat.add_assoc]

theorem skip_take (n : Nat) (p : Place) : p.skip (p.after.take n).length = p.skip n := by
  simp [skip, List.take_eq_take_iff, List.drop_eq_drop_iff]

theorem head?_before_skip (h : p.after = s ++ t) (hs : s ≠ []) :
    (p.skip s.length).before.head? = s.getLast? := by
  obtain ⟨c, hc⟩ := Option.ne_none_iff_exists'.mp (mt List.getLast?_eq_none_iff.mp hs)
  simp [skip, h, hc]

theorem after_skip (h : p.after = s ++ t) : (p.skip s.length).after = t := by
  simp [skip, h]

end Place

-- The length of the run of a class that a text starts with.
def runLength (f : Char → Bool) (t : Text) : Nat :=
  (t.takeWhile f).length

theorem getElem?_of_lt_runLength (h : i < runLength f t) : ∃ c, t[i]? = some c ∧ f c = true := by
  have hi : (t.takeWhile f)[i]? = some (t.takeWhile f)[i] := List.getElem?_eq_getElem h
  refine ⟨(t.takeWhile f)[i], ?_, List.all_eq_true.mp List.all_takeWhile _ (List.getElem_mem h)⟩
  exact (List.prefix_iff_getElem?.mp (List.takeWhile_prefix f) i h).trans rfl

theorem after_skip_runLength : (p.skip (runLength f p.after)).after = p.after.dropWhile f := by
  have h := List.takeWhile_append_dropWhile (p := f) (l := p.after)
  exact Place.after_skip h.symm

theorem length_takeRun (f : Char → Bool) (t : Text) : (takeRun f t).map (·.1.length) =
    if 1 ≤ runLength f t then some (runLength f t) else none := by
  cases t
  case nil      => rfl
  case cons c t => cases h : f c <;> simp [takeRun, runLength, h]

-- The ends of a run, the farthest one first.
theorem runPlaces_eq (f : Char → Bool) (n : Nat) (p : Place) :
    runPlaces f n p = ((List.range' n (runLength f p.after + 1 - n)).map (p.skip ·)).reverse := by
  have go (kept : List (Slot × Part)) (n i : Nat) (acc : List Place) (before t : Text) :
      runPlaces.go f kept n acc i before t =
        ((List.range' n (runLength f t + 1 - n)).map fun j =>
          Place.skip j ⟨i, before, t, kept⟩).reverse ++ acc := by
    induction t generalizing n i acc before
    case nil         => cases n <;> simp [runPlaces.go, runLength]
    case cons c t hi =>
      unfold runPlaces.go
      dsimp only
      split
      case isFalse hf => cases n <;> simp [runLength, hf]
      case isTrue hf  =>
        have hr : runLength f (c :: t) = runLength f t + 1 := by simp [runLength, hf]
        have hp (j : Nat) : Place.skip j ⟨i + 1, c :: before, t, kept⟩ =
            Place.skip (1 + j) ⟨i, before, c :: t, kept⟩ := by
          simp [Place.skip, Nat.add_assoc, Nat.add_comm 1]
        have hm (j m : Nat) :
            ((List.range' j m).map fun j => Place.skip (1 + j) ⟨i, before, c :: t, kept⟩) =
              (List.range' (1 + j) m).map fun j => Place.skip j ⟨i, before, c :: t, kept⟩ := by
          rw [← List.map_add_range', List.map_map]
          rfl
        simp only [hi, hr, hp, hm]
        cases n
        case zero   => simp [List.range'_succ]
        case succ n => simp [Nat.add_comm 1]
  exact (go ..).trans (List.append_nil _)

theorem find_char_nil (h : p.after = []) : (Pattern.char f).find p k = none := by
  simp [find, Place.next?, h]

theorem find_char (h : p.after = c :: t) :
    (Pattern.char f).find p k = if f c = true then k (p.skip 1) else none := by
  cases hf : f c <;> simp [find, Place.next?, h, Option.filter, hf, Place.skip]

theorem find_inOrder_cons (a : Pattern) (l : List Pattern) (p : Place) (k : Place → Option α) :
    (inOrder (a :: l)).find p k = (seq a (inOrder l)).find p k := by
  cases l <;> rfl

-- Inside a run of a class there is no character of another class.
theorem find_char_inside (h : ∀ c, f c = true → g c = false) (hi : i < runLength f p.after)
    (hq : q.after = p.after.drop i) : (Pattern.char g).find q k = none := by
  obtain ⟨c, hc, hf⟩ := getElem?_of_lt_runLength hi
  obtain ⟨t, ht⟩ := List.head?_eq_some_iff.mp <| (List.head?_drop ..).trans hc
  simp [find, Place.next?, hq, ht, Option.filter, h c hf]

-- Inside a run of word characters no word ends.
theorem find_boundary_inside (h : ∀ c, f c = true → isWord c = true) (h₀ : 0 < i)
    (hi : i < runLength f p.after) : boundary.find (p.skip i) k = none := by
  obtain ⟨c, hc, hf⟩ := getElem?_of_lt_runLength hi
  obtain ⟨d, hd, hg⟩ := getElem?_of_lt_runLength (show i - 1 < runLength f p.after by omega)
  have hc' : (p.skip i).after.head? = some c := (List.head?_drop ..).trans hc
  have hd' : (p.skip i).before.head? = some d := by
    simp [Place.skip, List.getLast?_take, hd, Nat.ne_of_gt h₀]
  simp [find, hc', hd', isBoundary, h c hf, h d hg]

-- A pattern finds what goes on after so many characters, or nothing.
def Takes (a : Pattern) (k : Place → Option α) (p : Place) (x : Option Nat) : Prop :=
  a.find p k = x.bind fun n => k (p.skip n)

namespace Takes

theorem congr (h : Takes a k p x) (hx : x = y) : Takes a k p y :=
  hx ▸ h

theorem empty : Takes .empty k p (some 0) :=
  rfl

theorem boundary :
    Takes .boundary k p (if isBoundary p.before.head? p.after.head? then some 0 else none) := by
  unfold Takes find
  split <;> rfl

theorem char : Takes (.char f) k p (if p.after.head?.any f then some 1 else none) := by
  unfold Takes
  cases h : p.after
  case nil      => exact find_char_nil h
  case cons c t =>
    rw [find_char h, List.head?_cons, Option.any_some]
    split <;> rfl

theorem seq {y : Nat → Option Nat} (ha : Takes a (fun q => b.find q k) p x)
    (hb : ∀ n ∈ x, Takes b k (p.skip n) (y n)) :
    Takes (.seq a b) k p (x.bind fun n => (y n).map (n + ·)) := by
  refine Eq.trans ha ?_
  cases x
  case none   => rfl
  case some n =>
    refine (hb n rfl).trans ?_
    rw [Option.bind_some]
    cases y n <;> simp only [Option.map, Option.bind, Place.skip_skip]

theorem alt (hk : ∀ q, (k q).isSome) (ha : Takes a k p x) (hb : Takes b k p y) :
    Takes (.alt a b) k p (x.or y) := by
  unfold Takes find
  rw [ha, hb]
  cases x
  case none   => rfl
  case some n =>
    obtain ⟨z, hz⟩ := Option.isSome_iff_exists.mp <| hk (p.skip n)
    simp [hz]

-- A run is taken as far as it goes if nothing that its end does not find is found before.
theorem run (h : ∀ i < runLength f p.after, n ≤ i → k (p.skip (runLength f p.after)) = none →
      k (p.skip i) = none) :
    Takes (.run n f) k p
      (if n ≤ runLength f p.after then some (runLength f p.after) else none) := by
  unfold Takes find
  rw [runPlaces_eq]
  generalize runLength f p.after = m at h
  split
  case isFalse hn => simp [show m + 1 - n = 0 by omega]
  case isTrue hn  =>
    rw [show m + 1 - n = m - n + 1 by omega, List.range'_concat, List.map_append,
      List.reverse_append]
    have hm : n + 1 * (m - n) = m := by omega
    simp only [List.map_cons, List.map_nil, List.reverse_singleton, List.singleton_append,
      List.findSome?_cons, hm, Option.bind_some]
    cases hk : k (p.skip m)
    case some => rfl
    case none =>
      refine List.findSome?_eq_none_iff.mpr fun q hq => ?_
      obtain ⟨i, hi, rfl⟩ := List.mem_map.mp (List.mem_reverse.mp hq)
      obtain ⟨hn, hm⟩ := List.mem_range'_1.mp hi
      exact h i (by omega) hn hk

-- A run of word characters up to the end of the word.
theorem run_boundary (h : ∀ c, f c = true → isWord c = true) (hn : 0 < n) :
    Takes (.run n f) (fun q => Pattern.boundary.find q k) p
      (if n ≤ runLength f p.after then some (runLength f p.after) else none) :=
  run fun _ hi h₀ _ => find_boundary_inside h (Nat.lt_of_lt_of_le hn h₀) hi

end Takes

-- A pattern finds what goes on after what a reader takes.
def Reads (a : Pattern) (k : Place → Option α) (r : Reader) : Prop :=
  ∀ p, Takes a k p ((r p.after).map (·.1.length))

namespace Reads

theorem char : Reads (.char f) k (takeShape [f]) := by
  refine fun p => Takes.char.congr ?_
  cases p.after
  case nil      => rfl
  case cons c t => cases hc : f c <;> simp [takeShape, hc]

theorem seq (hr : r.Exact) (ha : Reads a (fun q => b.find q k) r) (hb : Reads b k next) :
    Reads (.seq a b) k (r.andThen next) := by
  refine fun p => ((ha p).seq fun n _ => hb (p.skip n)).congr ?_
  unfold Reader.andThen
  cases hx : r p.after
  case none   => rfl
  case some x =>
    have hs : (p.skip x.1.length).after = x.2 := Place.after_skip (hr _ _ _ hx)
    simp [hs, Function.comp_def]

theorem alt (hk : ∀ q, (k q).isSome) (ha : Reads a k r) (hb : Reads b k next) :
    Reads (.alt a b) k fun t => (r t).orElse fun _ => next t := by
  refine fun p => ((ha p).alt hk (hb p)).congr ?_
  dsimp only
  cases r p.after <;> rfl

theorem isSome_option (hk : ∀ q, (k q).isSome) (q : Place) : ((option a).find q k).isSome := by
  rw [option, find, Option.isSome_or, find, hk, Bool.or_true]

-- What may follow a piece of a text is taken with it.
theorem option (hk : ∀ q, (k q).isSome) (hr : r.Exact)
    (ha : Reads a (fun q => (option b).find q k) r) (hb : Reads b k next) :
    Reads (.seq a (option b)) k fun t => (r t).map fun x => takeThen x next := by
  refine fun p => ((ha p).seq fun n _ => (hb (p.skip n)).alt hk .empty).congr ?_
  dsimp only
  cases hx : r p.after
  case none   => rfl
  case some x =>
    have hs : (p.skip x.1.length).after = x.2 := Place.after_skip (hr _ _ _ hx)
    cases hn : next x.2 <;> simp [takeThen, hs, hn]

theorem shape (l : List (Char → Bool)) : Reads (inOrder (l.map .char)) k (takeShape l) := by
  induction l
  case nil         => exact fun _ => rfl
  case cons f l hi =>
    rw [Reader.takeShape_cons]
    exact fun p => (find_inOrder_cons ..).trans <| seq (Reader.exact_shape [f]) char hi p

theorem span (h : ∀ c, f c = true → g c = false) :
    Reads (.run 0 f) (fun q => (Pattern.char g).find q k) (Reader.span f) :=
  fun _ => Takes.run fun _ hi _ _ => find_char_inside h hi rfl

theorem run (hk : ∀ q, (k q).isSome) : Reads (.run 1 f) k (takeRun f) := by
  have hn (q : Place) (h : k q = none) : False := by simpa [h] using hk q
  exact fun p => (Takes.run fun _ _ _ h => (hn _ h).elim).congr (length_takeRun f p.after).symm

theorem run_boundary (h : ∀ c, f c = true → isWord c = true) :
    Reads (.run 1 f) (fun q => boundary.find q k) (takeRun f) :=
  fun p => (Takes.run_boundary h Nat.one_pos).congr (length_takeRun f p.after).symm

end Reads

end Pattern

end LogOrigin.Text
