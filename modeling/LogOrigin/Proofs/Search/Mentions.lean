import LogOrigin.Proofs.Text.Blank
import LogOrigin.Proofs.Text.Trim
import LogOrigin.Search.Hint

-- The locations that a text mentions: how they are written, which of them are found, and in which
-- order.

namespace LogOrigin

open Text

namespace Decimal

theorem readDigits_eq (n : Nat) (t : Text) : readDigits n t = Nat.ofDigitChars 10 t n := by
  induction t generalizing n
  case nil         => exact Nat.ofDigitChars_nil.symm
  case cons c t hi =>
    calc
      readDigits n (c :: t)
          = readDigits (10 * n + (c.toNat - '0'.toNat)) t := by rw [Nat.mul_comm]; rfl
      _   = Nat.ofDigitChars 10 (c :: t) n                := by rw [hi, Nat.ofDigitChars_cons]

theorem natOfText?_eq_some_iff {k : Nat} {s : Text} (h : s ≠ []) : natOfText? s = some k ↔
    (∀ c ∈ s, isAsciiDigit c = true) ∧ k = Nat.ofDigitChars 10 s 0 := by
  rw [natOfText?, List.isEmpty_eq_false_iff.mpr h, readDigits_eq, Bool.false_or]
  split
  case isTrue hd  =>
    have hd : ¬∀ c ∈ s, isAsciiDigit c = true := by simpa using hd
    simp only [reduceCtorEq, false_iff]
    exact fun ha => hd ha.1
  case isFalse hd =>
    have hd : ∀ c ∈ s, isAsciiDigit c = true := by simpa using hd
    rw [Option.some.injEq]
    exact ⟨fun hk => ⟨hd, hk.symm⟩, fun hk => hk.2.symm⟩

end Decimal

namespace Hint

-- The digits of a number, up to where they end. They can be of any script.
structure IsNumber (n rest : Text) : Prop where
  ne_nil : n ≠ []
  digits : ∀ c ∈ n, isDigit c = true
  ends   : ∀ c ∈ rest.head?, isDigit c = false

-- How a stack frame is written at the front of a text, with what follows it.
structure IsFrame (t : Text) (m : Mention) (rest : Text) : Prop where
  text : t = "File \"".toList ++ (m.path ++ ("\", line ".toList ++ (m.line ++ rest)))
  path : m.path ≠ [] ∧ '"' ∉ m.path
  line : IsNumber m.line rest

-- Letters and other characters of paths, a word character or hyphen, a point and a short extension.
def IsRelative (p : Text) : Prop :=
  ∃ front c e extension, p = front ++ c :: '.' :: e :: extension ∧
    (∀ d ∈ front, isPathChar d = true) ∧ (isWord c = true ∨ c = '-') ∧ isAsciiLetter e = true ∧
    (∀ d ∈ extension, isAsciiAlnum d = true) ∧ extension.length ≤ 5

-- Such a path, with a drive before it or not.
def IsPath (p : Text) : Prop :=
  IsRelative p ∨ ∃ c q, isAsciiLetter c = true ∧ p = c :: ':' :: q ∧ IsRelative q

-- How a path and a line are written at the front of a text, with what follows them.
structure IsFileLine (t : Text) (m : Mention) (rest : Text) : Prop where
  text : t = m.path ++ ':' :: (m.line ++ rest)
  path : IsPath m.path
  line : IsNumber m.line rest

-- The location that a mention stands for. Lines are written with ASCII digits and count from one.
structure Places (m : Mention) (x : Location) : Prop where
  digits   : ∀ c ∈ m.line, isAsciiDigit c = true
  bound    : Nat.ofDigitChars 10 m.line 0 ≤ Decimal.maxIndex
  location : x = ⟨⟨m.path⟩, Nat.ofDigitChars 10 m.line 0 - 1⟩

-- A finder finds what is written in a certain way, and passes over it.
structure Finds (f : Finder) (Written : Text → Mention → Text → Prop) : Prop where
  iff    : ∀ before t n m, f before t = some (n, m) ↔
    ∃ r, Written t m r ∧ n = t.length - r.length
  suffix : ∀ t m r, Written t m r → ∃ a, a ≠ [] ∧ t = a ++ r

-- The mentions in a text from some character on, each with the number of characters before it. The
-- first one stands where the first one is written, and the search goes on behind it.
inductive Cuts (Written : Text → Mention → Text → Prop) (t : Text) :
    Nat → List (Nat × Mention) → Prop where
  | done {n : Nat} (h : ∀ i m r, n ≤ i → ¬Written (t.drop i) m r) : Cuts Written t n []
  | found {n i : Nat} {m : Mention} {r : Text} {l : List (Nat × Mention)} (hn : n ≤ i)
    (h : ∀ j m r, n ≤ j → j < i → ¬Written (t.drop j) m r) (hw : Written (t.drop i) m r)
    (hc : Cuts Written t (t.length - r.length) l) : Cuts Written t n ((i, m) :: l)

-- The first mention of one location stands before all mentions of another one.
def Sooner (l : List (Nat × Mention)) (x y : Location) : Prop :=
  ∃ e ∈ l, Places e.2 x ∧ ∀ d ∈ l, Places d.2 y → e.1 < d.1

variable {f : Finder} {Written : Text → Mention → Text → Prop} {t u p q r s : Text} {n i : Nat}
variable {m : Mention} {c : Char} {l : List (Nat × Mention)} {x y : Location}

theorem isPathChar_colon : isPathChar ':' = false := by
  decide

theorem isBlank_of_isPathChar (h : isPathChar c = true) : isBlank c = false := by
  simp only [isPathChar, Bool.or_eq_true, beq_iff_eq] at h
  rcases h with (((h | rfl) | rfl) | rfl) | rfl
  case inl.inl.inl.inl => exact isBlank_of_isWord h
  all_goals decide

theorem isNumber_iff : IsNumber s r ↔ takeRun isDigit (s ++ r) = some (s, r) := by
  rw [takeRun_eq_some_iff]
  exact ⟨fun ⟨hn, hd, he⟩ => ⟨rfl, hn, hd, he⟩, fun ⟨_, hn, hd, he⟩ => ⟨hn, hd, he⟩⟩

theorem finds_frame : Finds frame IsFrame where
  iff before t n m := by
    simp only [frame, Option.bind_eq_bind, Option.bind_eq_some_iff, dropLead?_eq_some, Prod.exists,
      Option.pure_def, Option.some.injEq, Prod.mk.injEq]
    constructor
    case mp  =>
      rintro ⟨_, rfl, path, _, hp, t, rfl, line, rest, hl, rfl, rfl⟩
      have ⟨ht, hn, hq, _⟩ := takeRun_eq_some_iff.mp hp
      obtain ⟨rfl, _⟩ := takeRun_eq_some_iff.mp hl
      exact ⟨rest, ⟨by rw [ht], ⟨hn, fun h => by simpa using hq _ h⟩, isNumber_iff.mpr hl⟩, rfl⟩
    case mpr =>
      rintro ⟨rest, ⟨rfl, ⟨hn, hq⟩, hl⟩, rfl⟩
      refine ⟨_, rfl, m.path, _, takeRun_eq_some_iff.mpr ⟨rfl, hn, ?_, by simp⟩, _, rfl, m.line,
        rest, isNumber_iff.mp hl, rfl, rfl⟩
      exact fun c hc => bne_iff_ne.mpr fun he => hq (he ▸ hc)
  suffix := by
    rintro t m r ⟨ht, _, _⟩
    exact ⟨"File \"".toList ++ (m.path ++ ("\", line ".toList ++ m.line)), by simp,
      by simpa using ht⟩

theorem IsRelative.pathChars (h : IsRelative p) : p ≠ [] ∧ ∀ c ∈ p, isPathChar c = true := by
  obtain ⟨front, c, e, extension, rfl, hf, hc, he, hx, _⟩ := h
  have word {d : Char} (hd : isAsciiAlnum d = true) : isPathChar d = true := by
    simp [isPathChar, isWord_of_isAsciiAlnum hd]
  refine ⟨by simp, fun d hd => ?_⟩
  simp only [List.mem_append, List.mem_cons] at hd
  rcases hd with hd | rfl | rfl | rfl | hd
  · exact hf d hd
  · rcases hc with hc | rfl
    case inl => simp [isPathChar, hc]
    case inr => decide
  · decide
  · exact word (by simp [isAsciiAlnum, he])
  · exact word (hx d hd)

-- A path is looked at from its end.
theorem hasExtension_iff (h : ∀ c ∈ p, isPathChar c = true) :
    hasExtension p = true ↔ IsRelative p := by
  constructor
  case mp  =>
    intro he
    simp only [hasExtension, Bool.and_eq_true, decide_eq_true_eq] at he
    obtain ⟨⟨hl, hf⟩, hc⟩ := he
    split at hc
    case h_2 => cases hc
    case h_1 c r hr =>
      have hp := List.takeWhile_append_dropWhile (p := isAsciiAlnum) (l := p.reverse)
      have hx : ∀ d ∈ p.reverse.takeWhile isAsciiAlnum, isAsciiAlnum d = true :=
        List.all_eq_true.mp List.all_takeWhile
      generalize p.reverse.takeWhile isAsciiAlnum = extension at hl hf hp hx
      obtain ⟨e, hf, he⟩ : ∃ e, extension.getLast? = some e ∧ isAsciiLetter e = true := by
        cases hf' : extension.getLast? <;> simp_all
      obtain ⟨x, rfl⟩ := List.getLast?_eq_some_iff.mp hf
      have hp : p = r.reverse ++ c :: '.' :: e :: x.reverse := by
        rw [← List.reverse_reverse p, ← hp, hr]
        simp
      refine ⟨r.reverse, c, e, x.reverse, hp, fun d hd => h d (hp ▸ by simp [hd]),
        by simpa using hc, he, fun d hd => ?_, ?_⟩
      · exact hx d (List.mem_append_left _ (List.mem_reverse.mp hd))
      · rw [List.length_append] at hl
        rw [List.length_reverse]
        exact Nat.le_of_succ_le_succ hl
  case mpr =>
    rintro ⟨front, c, e, extension, rfl, hf, hc, he, hx, hl⟩
    have hr : (front ++ c :: '.' :: e :: extension).reverse =
        (extension.reverse ++ [e]) ++ '.' :: c :: front.reverse := by simp
    have hx : ∀ d ∈ extension.reverse ++ [e], isAsciiAlnum d = true := by
      simp only [List.mem_append, List.mem_reverse, List.mem_singleton]
      rintro d (hd | rfl)
      case inl => exact hx d hd
      case inr => simp [isAsciiAlnum, he]
    obtain ⟨h₁, h₂⟩ := span_run (r := '.' :: c :: front.reverse) hx (by rintro _ ⟨⟩; decide)
    have hl : (extension.reverse ++ [e]).length ≤ maxExtension := by
      rw [List.length_append, List.length_reverse]
      exact Nat.succ_le_succ hl
    simp only [hasExtension, hr, h₁, h₂, hl, List.getLast?_concat]
    simpa [he] using hc

theorem pathLine?_eq_some_iff : pathLine? t = some (p, s, r) ↔
    t = p ++ ':' :: (s ++ r) ∧ IsRelative p ∧ IsNumber s r := by
  simp only [pathLine?, Option.bind_eq_bind, Option.bind_eq_some_iff, Prod.exists]
  constructor
  case mp  =>
    rintro ⟨path, rest, hp, h⟩
    have ⟨ht, _, hc, _⟩ := takeRun_eq_some_iff.mp hp
    split at h
    case isFalse   => cases h
    case isTrue he =>
      split at h
      case h_2     => cases h
      case h_1 u _ =>
        simp only [Option.bind_eq_some_iff, Prod.exists, Option.pure_def, Option.some.injEq,
          Prod.mk.injEq] at h
        obtain ⟨line, v, hl, rfl, rfl, rfl⟩ := h
        obtain ⟨rfl, _⟩ := takeRun_eq_some_iff.mp hl
        exact ⟨ht, (hasExtension_iff hc).mp he, isNumber_iff.mpr hl⟩
  case mpr =>
    rintro ⟨rfl, hp, hl⟩
    have ⟨hn, hc⟩ := hp.pathChars
    refine ⟨p, ':' :: (s ++ r), takeRun_eq_some_iff.mpr ⟨rfl, hn, hc, ?_⟩, ?_⟩
    · rintro _ ⟨⟩
      exact isPathChar_colon
    · simp [(hasExtension_iff hc).mpr hp, isNumber_iff.mp hl]

theorem drive?_eq_some_iff : drive? t = some (s, r) ↔
    ∃ c, isAsciiLetter c = true ∧ s = [c, ':'] ∧ t = c :: ':' :: r := by
  constructor
  case mp  =>
    intro h
    unfold drive? at h
    split at h
    case h_2     => cases h
    case h_1 c u =>
      split at h
      case isFalse   => cases h
      case isTrue hc =>
        cases h
        exact ⟨c, hc, rfl, rfl⟩
  case mpr =>
    rintro ⟨c, hc, rfl, rfl⟩
    simp [drive?, hc]

-- A path without a drive is longer than a drive letter and holds no colon.
theorem IsRelative.not_drive (h : IsRelative p) : p ++ r ≠ c :: ':' :: s := by
  have ⟨hn, hc⟩ := h.pathChars
  intro he
  rcases p with _ | ⟨a, _ | ⟨b, q⟩⟩
  case nil       => exact hn rfl
  case cons.nil  =>
    obtain ⟨front, d, e, extension, hp, _⟩ := h
    have := congrArg List.length hp
    simp only [List.length_cons, List.length_nil, List.length_append] at this
    omega
  case cons.cons =>
    have he : a :: b :: (q ++ r) = c :: ':' :: s := he
    obtain rfl := (List.cons.inj (List.cons.inj he).2).1
    exact absurd (hc ':' (by simp)) (by rw [isPathChar_colon]; decide)

theorem pathLine?_drive (c : Char) (t : Text) : pathLine? (c :: ':' :: t) = none :=
  Option.eq_none_iff_forall_ne_some.mpr fun ⟨_, _, _⟩ h =>
    have ⟨ht, hp, _⟩ := pathLine?_eq_some_iff.mp h
    hp.not_drive ht.symm

theorem fileLine_relative (before : Option Char) (h : drive? t = none) : fileLine before t =
    (pathLine? t).map fun (path, line, r) => (t.length - r.length, ⟨path, line⟩) := by
  simp [fileLine, h]

theorem fileLine_drive (before : Option Char) (h : isAsciiLetter c = true) (t : Text) :
    fileLine before (c :: ':' :: t) = (pathLine? t).map fun (path, line, r) =>
      ((c :: ':' :: t).length - r.length, ⟨c :: ':' :: path, line⟩) := by
  have hd : drive? (c :: ':' :: t) = some ([c, ':'], t) := drive?_eq_some_iff.mpr ⟨c, h, rfl, rfl⟩
  cases hp : pathLine? t <;> simp [fileLine, hd, pathLine?_drive, hp]

theorem finds_fileLine : Finds fileLine IsFileLine where
  iff before t n m := by
    cases hd : drive? t
    case none =>
      simp only [fileLine_relative before hd, Option.map_eq_some_iff, Prod.exists, Prod.mk.injEq,
        pathLine?_eq_some_iff]
      constructor
      case mp  =>
        rintro ⟨path, line, r, ⟨ht, hp, hl⟩, rfl, rfl⟩
        exact ⟨r, ⟨ht, .inl hp, hl⟩, rfl⟩
      case mpr =>
        rintro ⟨r, ⟨ht, hp | ⟨c, q, hc, hq, _⟩, hl⟩, rfl⟩
        case inl => exact ⟨m.path, m.line, r, ⟨ht, hp, hl⟩, rfl, rfl⟩
        case inr =>
          have := drive?_eq_some_iff.mpr ⟨c, hc, rfl, hq ▸ ht⟩
          simp [hd] at this
    case some x =>
      obtain ⟨c, hc, _, rfl⟩ := drive?_eq_some_iff.mp hd
      simp only [fileLine_drive before hc, Option.map_eq_some_iff, Prod.exists, Prod.mk.injEq,
        pathLine?_eq_some_iff]
      constructor
      case mp  =>
        rintro ⟨path, line, r, ⟨ht, hp, hl⟩, rfl, rfl⟩
        exact ⟨r, ⟨by simp [ht], .inr ⟨c, path, hc, rfl, hp⟩, hl⟩, rfl⟩
      case mpr =>
        rintro ⟨r, ⟨ht, hp | ⟨d, q, hd, hq, hp⟩, hl⟩, rfl⟩
        case inl => exact absurd ht.symm hp.not_drive
        case inr =>
          rw [hq] at ht
          have ht : c :: ':' :: x.2 = d :: ':' :: (q ++ ':' :: (m.line ++ r)) := ht
          obtain ⟨rfl, hx⟩ := List.cons.inj ht
          refine ⟨q, m.line, r, ⟨(List.cons.inj hx).2, hp, hl⟩, rfl, ?_⟩
          rw [← hq]
  suffix := by
    rintro t m r ⟨ht, _, _⟩
    exact ⟨m.path ++ ':' :: m.line, by simp, by simpa using ht⟩

namespace Finds

theorem length_lt (h : Finds f Written) (hw : Written t m r) : r.length < t.length := by
  obtain ⟨a, ha, rfl⟩ := h.suffix t m r hw
  have := List.length_pos_iff.mpr ha
  rw [List.length_append]
  omega

-- There is one way to read a mention.
theorem unique {m' : Mention} {r' : Text} (h : Finds f Written) (hw : Written t m r)
    (hw' : Written t m' r') : m = m' := by
  have h₁ := (h.iff none t _ m).mpr ⟨r, hw, rfl⟩
  have h₂ := (h.iff none t _ m').mpr ⟨r', hw', rfl⟩
  exact (Prod.mk.inj (Option.some.inj (h₁.symm.trans h₂))).2

theorem exists_written (h : Finds f Written) {before : Option Char} {n : Nat}
    (hf : f before t = some (n, m)) : ∃ r, Written t m r ∧ 0 < n ∧ n + r.length = t.length := by
  obtain ⟨r, hw, rfl⟩ := (h.iff before t n m).mp hf
  have := h.length_lt hw
  exact ⟨r, hw, by omega, by omega⟩

end Finds

theorem Cuts.skip (h : ∀ m r, ¬Written (t.drop n) m r) (hc : Cuts Written t (n + 1) l) :
    Cuts Written t n l := by
  have later {i : Nat} (hi : n ≤ i) (hl : n + 1 ≤ i → ∀ m r, ¬Written (t.drop i) m r) :
      ∀ m r, ¬Written (t.drop i) m r := by
    rcases Nat.eq_or_lt_of_le hi with rfl | hi
    case inl => exact h
    case inr => exact hl hi
  rcases hc with ⟨hd⟩ | ⟨hn, hd, hw, hc⟩
  case done  => exact .done fun i m r hi => later hi (fun hi m r => hd i m r hi) m r
  case found =>
    exact .found (Nat.le_of_succ_le hn)
      (fun j m r hj hl => later hj (fun hj m r => hd j m r hj hl) m r) hw hc

-- The search goes on behind the characters that are left of a mention.
theorem cuts_go (h : Finds f Written) (skip : Nat) (before : Option Char) (hu : t.drop n = u)
    (hn : n + skip ≤ t.length) : ∃ l, Cuts Written t (n + skip) l ∧
      findAll.go f before skip u = l.map Prod.snd := by
  induction u generalizing n skip before
  case nil         =>
    refine ⟨[], .done fun i m r hi hw => ?_, ?_⟩
    · have hl := h.length_lt hw
      have ht := List.drop_eq_nil_iff.mp hu
      rw [List.length_drop] at hl
      omega
    · cases skip <;> rfl
  case cons c u hi =>
    have hl := congrArg List.length hu
    rw [List.length_drop, List.length_cons] at hl
    have hu' : t.drop (n + 1) = u := by rw [← List.drop_drop, hu, List.drop_one, List.tail_cons]
    cases skip
    case succ skip =>
      obtain ⟨l, hc, hg⟩ := hi skip (some c) hu' (by omega)
      exact ⟨l, by rwa [Nat.add_assoc, Nat.add_comm 1] at hc, hg⟩
    case zero      =>
      unfold findAll.go
      split
      case h_1 k m hf =>
        obtain ⟨r, hw, _, hr⟩ := h.exists_written hf
        rw [List.length_cons] at hr
        obtain ⟨l, hc, hg⟩ := hi k (some c) hu' (by omega)
        refine ⟨(n, m) :: l, .found (Nat.le_refl n) (fun _ _ _ hj hl => ?_) (hu ▸ hw) ?_, ?_⟩
        · exact absurd hj (Nat.not_le.mpr hl)
        · rwa [show t.length - r.length = n + 1 + k by omega]
        · rw [hg, List.map_cons]
      case h_2 hf     =>
        obtain ⟨l, hc, hg⟩ := hi 0 (some c) hu' (by omega)
        refine ⟨l, hc.skip fun m r hw => ?_, hg⟩
        have hw : Written (c :: u) m r := hu ▸ hw
        obtain ⟨k, hk⟩ := Nat.exists_eq_add_of_lt (h.length_lt hw)
        refine hf k m <| (h.iff before _ _ m).mpr ⟨r, hw, by omega⟩

theorem exists_cuts (h : Finds f Written) (t : Text) :
    ∃ l, Cuts Written t 0 l ∧ findAll f t = l.map Prod.snd :=
  cuts_go h 0 none rfl (Nat.zero_le _)

theorem Finds.lt_next (h : Finds f Written) (hw : Written (t.drop i) m r) :
    i < t.length - r.length := by
  have := h.length_lt hw
  rw [List.length_drop] at this
  omega

namespace Cuts

theorem le_of_mem (h : Finds f Written) (hc : Cuts Written t n l) : ∀ e ∈ l, n ≤ e.1 := by
  induction hc
  case done                   => simp
  case found hn _ hw hc hi =>
    have := h.lt_next hw
    refine List.forall_mem_cons.mpr ⟨hn, fun e he => ?_⟩
    have := hi e he
    omega

theorem sorted (h : Finds f Written) (hc : Cuts Written t n l) :
    l.Pairwise fun d e => d.1 < e.1 := by
  induction hc
  case done                => exact .nil
  case found hn _ hw hc hi =>
    exact .cons (fun e he => Nat.lt_of_lt_of_le (h.lt_next hw) (hc.le_of_mem h e he)) hi

theorem written (hc : Cuts Written t n l) : ∀ e ∈ l, ∃ r, Written (t.drop e.1) e.2 r := by
  induction hc
  case done                => simp
  case found hn _ hw hc hi => exact List.forall_mem_cons.mpr ⟨⟨_, hw⟩, hi⟩

-- A mention is found if those that start before it end before it.
theorem mem (h : Finds f Written) (hc : Cuts Written t n l) (hn : n ≤ i)
    (hw : Written (t.drop i) m r)
    (hb : ∀ j m r, j < i → Written (t.drop j) m r → t.length - r.length ≤ i) : (i, m) ∈ l := by
  induction hc
  case done hd                      => exact absurd hw (hd i m r hn)
  case found k m' r' l _ hd hw' _ hi =>
    rcases Nat.lt_trichotomy i k with hl | rfl | hl
    case inl     => exact absurd hw (hd i m r hn hl)
    case inr.inl => exact h.unique hw hw' ▸ List.mem_cons_self ..
    case inr.inr => exact List.mem_cons_of_mem _ (hi (hb k _ _ hl hw'))

end Cuts

-- No sign stands in front of the digits of a mention.
theorem indexOfText?_of_isNumber (h : IsNumber s r) :
    Decimal.indexOfText? s = (Decimal.natOfText? s).filter (· ≤ Decimal.maxIndex) := by
  unfold Decimal.indexOfText?
  split
  case h_2 => rfl
  case h_1 => exact absurd (h.digits '+' (List.mem_cons_self ..)) (by decide)

theorem locationOf?_eq_some_iff (h : IsNumber m.line r) :
    locationOf? m = some x ↔ Places m x := by
  simp only [locationOf?, indexOfText?_of_isNumber h, Option.map_eq_some_iff,
    Option.filter_eq_some_iff, Decimal.natOfText?_eq_some_iff h.ne_nil, decide_eq_true_eq]
  constructor
  case mp  =>
    rintro ⟨_, ⟨⟨hd, rfl⟩, hb⟩, rfl⟩
    exact ⟨hd, hb, rfl⟩
  case mpr =>
    rintro ⟨hd, hb, rfl⟩
    exact ⟨_, ⟨⟨hd, rfl⟩, hb⟩, rfl⟩

theorem Sooner.cons {e : Nat × Mention} (h : Sooner l x y) (he : ¬Places e.2 y) :
    Sooner (e :: l) x y := by
  obtain ⟨d, hd, hx, hy⟩ := h
  refine ⟨d, List.mem_cons_of_mem _ hd, hx, fun b hb hb' => ?_⟩
  rcases List.mem_cons.mp hb with rfl | hb
  case inl => exact absurd hb' he
  case inr => exact hy b hb hb'

-- The new locations are added in the order of their first mentions.
theorem foldl_addNew (hl : l.Pairwise fun d e => d.1 < e.1)
    (hp : ∀ e ∈ l, ∀ x, locationOf? e.2 = some x ↔ Places e.2 x) (known : List Location) :
    ∃ new, ((l.map Prod.snd).filterMap locationOf?).foldl addNew known = known ++ new ∧
      (∀ x, x ∈ new ↔ x ∉ known ∧ ∃ e ∈ l, Places e.2 x) ∧ new.Nodup ∧
      new.Pairwise (Sooner l) := by
  induction l generalizing known
  case nil         => exact ⟨[], by simp⟩
  case cons e l hi =>
    have ⟨he, hl⟩ := List.pairwise_cons.mp hl
    have ⟨hp, hp'⟩ := List.forall_mem_cons.mp hp
    have hi := hi hl hp'
    cases ho : locationOf? e.2
    case none   =>
      have hp (x : Location) : ¬Places e.2 x := by simp [← hp, ho]
      obtain ⟨new, hf, hm, hn, hs⟩ := hi known
      refine ⟨new, by simpa [ho] using hf, fun x => by simp [hm, hp], hn, ?_⟩
      exact hs.imp fun h => h.cons (hp _)
    case some x =>
      have hp (y : Location) : Places e.2 y ↔ x = y := by simp [← hp, ho]
      by_cases hx : x ∈ known
      case pos =>
        obtain ⟨new, hf, hm, hn, hs⟩ := hi known
        have other {y : Location} (hy : y ∉ known) : x ≠ y := fun h => hy (h ▸ hx)
        refine ⟨new, by simpa [ho, addNew, hx] using hf, fun y => ?_, hn, ?_⟩
        · simp only [hm, List.mem_cons, exists_eq_or_imp, hp]
          exact and_congr_right fun hy => (or_iff_right (other hy)).symm
        · exact hs.imp_of_mem fun _ hy h => h.cons (mt (hp _).mp (other ((hm _).mp hy).1))
      case neg =>
        obtain ⟨new, hf, hm, hn, hs⟩ := hi (known ++ [x])
        have other {y : Location} (hy : y ∈ new) : x ≠ y := by
          rintro rfl
          simpa using ((hm x).mp hy).1
        refine ⟨x :: new, by simpa [ho, addNew, hx] using hf, fun y => ?_, ?_, .cons ?_ ?_⟩
        · simp only [hm, List.mem_cons, exists_eq_or_imp, hp, List.mem_append, List.not_mem_nil,
            or_false, not_or]
          by_cases hy : y = x
          case pos => simp [hy, hx]
          case neg => simp [hy, Ne.symm hy]
        · exact List.nodup_cons.mpr ⟨fun h => other h rfl, hn⟩
        · refine fun y hy => ⟨e, List.mem_cons_self .., (hp x).mpr rfl, fun d hd h => ?_⟩
          rcases List.mem_cons.mp hd with rfl | hd
          case inl => exact absurd ((hp y).mp h) (other hy)
          case inr => exact he d hd
        · exact hs.imp_of_mem fun _ hy h => h.cons (mt (hp _).mp (other hy))

theorem Cuts.places_iff (hn : ∀ t m r, Written t m r → IsNumber m.line r)
    (hc : Cuts Written t n l) : ∀ e ∈ l, ∀ x, locationOf? e.2 = some x ↔ Places e.2 x :=
  fun e he _ =>
    have ⟨_, hw⟩ := hc.written e he
    locationOf?_eq_some_iff (hn _ _ _ hw)

theorem IsFileLine.no_blanks (h : IsFileLine t m r) :
    ∃ a, t = a ++ r ∧ ∀ c ∈ a, isBlank c = false := by
  have relative {p : Text} (h : IsRelative p) : ∀ c ∈ p, isBlank c = false := fun c hc =>
    isBlank_of_isPathChar (h.pathChars.2 c hc)
  have hp : ∀ c ∈ m.path, isBlank c = false := by
    rcases h.path with h | ⟨c, q, hc, hq, h⟩
    case inl => exact relative h
    case inr =>
      have hc : isBlank c = false :=
        isBlank_of_isWord (isWord_of_isAsciiAlnum (by simp [isAsciiAlnum, hc]))
      rw [hq]
      exact List.forall_mem_cons.mpr ⟨hc, List.forall_mem_cons.mpr ⟨by decide, relative h⟩⟩
  refine ⟨m.path ++ ':' :: m.line, by simpa using h.text, fun c hc => ?_⟩
  rcases List.mem_append.mp hc with hc | hc
  case inl => exact hp c hc
  case inr =>
    rcases List.mem_cons.mp hc with rfl | hc
    case inl => decide
    case inr => exact isBlank_of_isDigit (h.line.digits c hc)

-- What starts before a blank and holds no blank ends before it.
theorem length_le_of_blank {a : Text} (ht : t = s ++ u) (hs : ∀ c ∈ s.getLast?, isBlank c = true)
    (hi : i < s.length) (ha : t.drop i = a ++ r) (hb : ∀ c ∈ a, isBlank c = false) :
    t.length - r.length ≤ s.length := by
  refine Nat.le_of_not_lt fun hl => ?_
  have hu : t.drop i = s.drop i ++ u := by
    rw [ht, List.drop_append_of_le_length (Nat.le_of_lt hi)]
  have hn : t.length - i = a.length + r.length := by
    rw [← List.length_drop, ha, List.length_append]
  have hp : s.drop i <+: a := by
    refine List.prefix_of_prefix_length_le ⟨u, hu.symm⟩ ⟨r, ha.symm⟩ ?_
    rw [List.length_drop]
    omega
  obtain ⟨c, hc⟩ : ∃ c, s.getLast? = some c := by
    rw [← Option.isSome_iff_exists, List.getLast?_isSome]
    exact List.ne_nil_of_length_pos (Nat.zero_lt_of_lt hi)
  have hc' : c ∈ s.drop i := by
    refine List.mem_of_getLast? ?_
    rw [List.getLast?_drop, if_neg (Nat.not_le.mpr hi), hc]
  exact absurd (hs c hc) (by rw [hb c (hp.subset hc')]; decide)

-- A path with a line is found at the front of a text and after a blank, whatever follows it.
-- Nothing is found but what is written in one of the two ways, and nothing twice. The locations of
-- frames come first. Of two locations of one kind, the one that is mentioned first comes first.
theorem locations_describe (t : Text) :
    (∀ s u m r x, t = s ++ u → (∀ c ∈ s.getLast?, isBlank c = true) → IsFileLine u m r →
      Places m x → x ∈ locations t) ∧
    (∀ x ∈ locations t, ∃ s u m r, t = s ++ u ∧ (IsFrame u m r ∨ IsFileLine u m r) ∧ Places m x) ∧
    (locations t).Nodup ∧
    ∃ frames lines, Cuts IsFrame t 0 frames ∧ Cuts IsFileLine t 0 lines ∧
      ∃ A B, locations t = A ++ B ∧
        (∀ x, x ∈ A ↔ ∃ e ∈ frames, Places e.2 x) ∧ A.Pairwise (Sooner frames) ∧
        (∀ x, x ∈ B ↔ x ∉ A ∧ ∃ e ∈ lines, Places e.2 x) ∧ B.Pairwise (Sooner lines) := by
  obtain ⟨frames, hf, hf'⟩ := exists_cuts finds_frame t
  obtain ⟨lines, hl, hl'⟩ := exists_cuts finds_fileLine t
  obtain ⟨A, hA, mA, nA, sA⟩ :=
    foldl_addNew (hf.sorted finds_frame) (hf.places_iff fun _ _ _ h => h.line) []
  obtain ⟨B, hB, mB, nB, sB⟩ :=
    foldl_addNew (hl.sorted finds_fileLine) (hl.places_iff fun _ _ _ h => h.line) A
  have ht : locations t = A ++ B := by
    rw [locations, hf', hl', List.filterMap_append, List.foldl_append, hA, List.nil_append, hB]
  simp only [List.not_mem_nil, not_false_eq_true, true_and] at mA
  refine ⟨fun s u m r x hu hs hw hx => ?_, fun x hx => ?_, ?_, frames, lines, hf, hl, A, B, ht, mA,
    sA, mB, sB⟩
  · have hd : t.drop s.length = u := by rw [hu, List.drop_left]
    have he : (s.length, m) ∈ lines := by
      refine hl.mem finds_fileLine (Nat.zero_le _) (hd ▸ hw) fun j m r hj hw => ?_
      have ⟨a, ha, hb⟩ := hw.no_blanks
      exact length_le_of_blank hu hs hj ha hb
    rw [ht, List.mem_append, mB]
    by_cases hA : x ∈ A
    case pos => exact .inl hA
    case neg => exact .inr ⟨hA, _, he, hx⟩
  · rw [ht, List.mem_append, mA, mB] at hx
    rcases hx with ⟨e, he, hx⟩ | ⟨_, e, he, hx⟩
    case inl =>
      have ⟨r, hw⟩ := hf.written e he
      exact ⟨_, _, e.2, r, (List.take_append_drop e.1 t).symm, .inl hw, hx⟩
    case inr =>
      have ⟨r, hw⟩ := hl.written e he
      exact ⟨_, _, e.2, r, (List.take_append_drop e.1 t).symm, .inr hw, hx⟩
  · rw [ht, List.nodup_append]
    exact ⟨nA, nB, fun x hx y hy h => ((mB y).mp hy).1 (h ▸ hx)⟩

-- A frame between two mentions of a location, and a line 0, which counts as the first one.
theorem locations_describe_repeated :
    let s := "src/main.rs:7:5 File \"a.py\", line 3, C:\\b.rs:0 ".toList
    let u := "src/main.rs:7".toList
    let x : Location := ⟨⟨"src/main.rs".toList⟩, 6⟩
    locations (s ++ u) = [⟨⟨"a.py".toList⟩, 2⟩, x, ⟨⟨"C:\\b.rs".toList⟩, 0⟩] ∧
      x ∈ locations (s ++ u) ∧ (locations (s ++ u)).Nodup := by
  intro s u x
  have ⟨hc, _, hn, _⟩ := locations_describe (s ++ u)
  have hp : IsRelative "src/main.rs".toList :=
    ⟨"src/mai".toList, 'n', 'r', "s".toList, rfl, by decide +kernel, .inl (by decide +kernel),
      by decide, by decide, by decide⟩
  have hu : IsFileLine u ⟨"src/main.rs".toList, "7".toList⟩ [] :=
    ⟨rfl, .inl hp, by decide, by decide, by decide⟩
  exact ⟨by decide +kernel, hc s u _ [] x rfl (by decide) hu ⟨by decide, by decide, rfl⟩, hn⟩

end Hint

end LogOrigin
