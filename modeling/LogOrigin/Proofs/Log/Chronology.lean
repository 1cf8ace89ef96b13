import LogOrigin.Proofs.Log.Views
import Mathlib.Algebra.Order.Field.Rat
import Mathlib.Tactic.Linarith

-- Records in the order of their timestamps, which are compared as texts, beside the order of the
-- times that the timestamps mean.

namespace LogOrigin

open Text

-- The days of the Gregorian calendar.
namespace Calendar

variable {year year' month month' day day' : Nat}

def isLeap (year : Nat) : Bool :=
  year % 4 == 0 && (year % 100 != 0 || year % 400 == 0)

def yearLength (year : Nat) : Nat :=
  if isLeap year then 366 else 365

-- Months are counted from one.
def monthLength (year : Nat) : Nat → Nat
  | 0              => 0
  | 2              => if isLeap year then 29 else 28
  | 4 | 6 | 9 | 11 => 30
  | _              => 31

def daysBeforeYear : Nat → Nat
  | 0        => 0
  | year + 1 => daysBeforeYear year + yearLength year

def daysBeforeMonth (year : Nat) : Nat → Nat
  | 0         => 0
  | month + 1 => daysBeforeMonth year month + monthLength year month

-- The number of a day, counted from the beginning of the year zero.
def dayNumber (year month day : Nat) : Nat :=
  daysBeforeYear year + daysBeforeMonth year month + day

structure IsDay (year month day : Nat) : Prop where
  month_le : month ≤ 12
  day_pos  : 0 < day
  day_le   : day ≤ monthLength year month

theorem daysBeforeMonth_le (year : Nat) (h : month < month') :
    daysBeforeMonth year month + monthLength year month ≤ daysBeforeMonth year month' := by
  induction month', h using Nat.le_induction
  case base           => exact Nat.le_refl _
  case succ m' _ hi => exact Nat.le_add_right_of_le hi

theorem daysBeforeYear_le (h : year < year') :
    daysBeforeYear year + yearLength year ≤ daysBeforeYear year' := by
  induction year', h using Nat.le_induction
  case base         => exact Nat.le_refl _
  case succ y' _ hi => exact Nat.le_add_right_of_le hi

theorem monthLength_le (year month : Nat) : monthLength year month ≤ 31 := by
  unfold monthLength
  split <;> (try split) <;> decide

theorem daysBeforeMonth_end (year : Nat) : daysBeforeMonth year 13 = yearLength year := by
  simp only [daysBeforeMonth, monthLength, yearLength]
  cases isLeap year <;> rfl

theorem IsDay.le_yearLength (h : IsDay year month day) :
    daysBeforeMonth year month + day ≤ yearLength year := by
  have hm := daysBeforeMonth_le year (Nat.lt_succ_of_le h.month_le)
  rw [daysBeforeMonth_end] at hm
  have hd := h.day_le
  omega

theorem dayNumber_lt (h : IsDay year month day) (h' : IsDay year' month' day')
    (hl : year < year' ∨ year = year' ∧ (month < month' ∨ month = month' ∧ day < day')) :
    dayNumber year month day < dayNumber year' month' day' := by
  have hd := h.day_le
  have hp := h'.day_pos
  unfold dayNumber
  rcases hl with hy | ⟨rfl, hm | ⟨rfl, hd⟩⟩
  case inl     =>
    have hy := daysBeforeYear_le hy
    have hl := h.le_yearLength
    omega
  case inr.inl =>
    have hm := daysBeforeMonth_le year hm
    omega
  case inr.inr => exact Nat.add_lt_add_left hd _

-- Days are in the order of their numbers.
theorem dayNumber_lt_iff (h : IsDay year month day) (h' : IsDay year' month' day') :
    dayNumber year month day < dayNumber year' month' day' ↔
      year < year' ∨ year = year' ∧ (month < month' ∨ month = month' ∧ day < day') := by
  refine ⟨fun hl => ?_, dayNumber_lt h h'⟩
  by_contra hn
  have hl' : year' < year ∨ year' = year ∧ (month' < month ∨ month' = month ∧ day' < day) ∨
      year = year' ∧ month = month' ∧ day = day' := by
    omega
  rcases hl' with hy | ⟨hy, hm⟩ | ⟨rfl, rfl, rfl⟩
  case inl     => exact Nat.lt_asymm hl <| dayNumber_lt h' h (.inl hy)
  case inr.inl => exact Nat.lt_asymm hl <| dayNumber_lt h' h (.inr ⟨hy, hm⟩)
  case inr.inr => exact Nat.lt_irrefl _ hl

theorem dayNumber_inj (h : IsDay year month day) (h' : IsDay year' month' day')
    (he : dayNumber year month day = dayNumber year' month' day') :
    year = year' ∧ month = month' ∧ day = day' := by
  have hl := mt (dayNumber_lt_iff h h').mpr (by omega)
  have hl' := mt (dayNumber_lt_iff h' h).mpr (by omega)
  omega

end Calendar

-- A written fraction of a second: a point or a comma, and some digits.
structure Fraction where
  mark       : Char
  digits     : List (Fin 10)
  isMark     : Timestamp.isFractionMark mark = true
  digits_pos : digits ≠ []

namespace Fraction

def digit (d : Fin 10) : Char :=
  Nat.digitChar d

def text (f : Fraction) : Text :=
  f.mark :: f.digits.map digit

-- The part of the whole that digits behind a point mean.
def part : List (Fin 10) → ℚ
  | []     => 0
  | d :: l => ((d : Nat) + part l) / 10

def value (f : Fraction) : ℚ :=
  part f.digits

-- Of fractions with different marks the one with the comma comes first. Of those with the same mark
-- the smaller one comes first unless the other one begins with it.
def KeepsOrder (f g : Fraction) : Prop :=
  f.mark = ',' ∧ g.mark = '.' ∨ f.mark = g.mark ∧ ¬f.digits <+: g.digits

instance (f g : Fraction) : Decidable (KeepsOrder f g) :=
  inferInstanceAs (Decidable (_ ∨ _))

-- The mark and the number of digits.
def form (f : Fraction) : Char × Nat :=
  (f.mark, f.digits.length)

variable {d e : Fin 10} {l m : List (Fin 10)}

theorem part_nonneg (l : List (Fin 10)) : 0 ≤ part l := by
  induction l
  case nil         => exact le_rfl
  case cons d l hi => exact div_nonneg (add_nonneg d.val.cast_nonneg hi) (by decide)

theorem part_lt_one (l : List (Fin 10)) : part l < 1 := by
  induction l
  case nil         => exact zero_lt_one
  case cons d l hi =>
    have hd : ((d : Nat) : ℚ) ≤ 9 := by exact_mod_cast Nat.le_of_lt_succ d.isLt
    rw [part]
    linarith

theorem part_cons_lt_iff : part (d :: l) < part (e :: m) ↔ d < e ∨ d = e ∧ part l < part m := by
  have hl := part_nonneg l
  have hm := part_nonneg m
  have hl' := part_lt_one l
  have hm' := part_lt_one m
  rw [part, part]
  rcases Nat.lt_trichotomy d e with h | h | h
  case inl     =>
    have hd : ((d : Nat) : ℚ) + 1 ≤ (e : Nat) := by exact_mod_cast h
    refine iff_of_true ?_ (.inl h)
    linarith
  case inr.inl =>
    obtain rfl := Fin.ext h
    have hp : ((d : Nat) + part l) / 10 < ((d : Nat) + part m) / 10 ↔ part l < part m := by
      constructor <;> intro <;> linarith
    simp [hp]
  case inr.inr =>
    have hd : ((e : Nat) : ℚ) + 1 ≤ (d : Nat) := by exact_mod_cast h
    refine iff_of_false ?_ ?_
    case refine_1 => linarith
    case refine_2 => omega

-- Digits are compared with a `Z` behind them, which comes after all digits. So a fraction comes
-- before a greater one unless that one begins with it.
theorem before_digits_iff (h : part l < part m) :
    Before (l.map digit ++ ['Z']) (m.map digit ++ ['Z']) ↔ ¬l <+: m := by
  induction l generalizing m
  case nil         =>
    obtain _ | ⟨e, m⟩ := m
    case nil  => exact absurd h (lt_irrefl _)
    case cons =>
      have he : ∀ e : Fin 10, ¬Before (digit e :: []) [] := by decide
      have hz : ∀ e : Fin 10, ¬('Z' < digit e ∨ 'Z' = digit e) := by decide
      simp only [List.map_nil, List.nil_append, List.map_cons, List.cons_append, before_cons_iff,
        List.nil_prefix, not_true_eq_false, iff_false]
      exact fun hb => hz e <| hb.imp_right And.left
  case cons d l hi =>
    obtain _ | ⟨e, m⟩ := m
    case nil  => exact absurd h (part_nonneg _).not_gt
    case cons =>
      have hd : digit d < digit e ↔ d < e := digitChar_lt_iff d.isLt e.isLt
      have he : digit d = digit e ↔ d = e :=
        ⟨fun h => Fin.ext <| digitChar_inj d.isLt e.isLt h, fun h => by rw [h]⟩
      rw [List.map_cons, List.map_cons, List.cons_append, List.cons_append, before_cons_iff, hd,
        he, List.cons_prefix_cons]
      rcases part_cons_lt_iff.mp h with hl | ⟨rfl, hp⟩
      case inl => simp [hl, Fin.ne_of_lt hl]
      case inr => simp [hi hp]

end Fraction

-- A valid time in UTC. The last minute of a day may have a leap second.
structure UtcTime where
  year      : Nat
  month     : Nat
  day       : Nat
  hour      : Nat
  minute    : Nat
  second    : Nat
  fraction  : Option Fraction
  year_lt   : year < 10000
  isDay     : Calendar.IsDay year month day
  hour_lt   : hour < 24
  minute_lt : minute < 60
  second_lt : second < 61

namespace UtcTime

variable {a b : UtcTime} {p : Prop}

-- What follows the second.
def ending (a : UtcTime) : Text :=
  (a.fraction.elim [] Fraction.text) ++ ['Z']

-- The date and the time of the day, to the second.
def clock (a : UtcTime) : Text :=
  numeral 4 a.year ++ '-' :: (numeral 2 a.month ++ '-' :: (numeral 2 a.day ++ 'T' ::
    (numeral 2 a.hour ++ ':' :: (numeral 2 a.minute ++ ':' :: numeral 2 a.second))))

-- The time as it is written in a log, such as `2025-04-20T03:16:50.5Z`.
def text (a : UtcTime) : Text :=
  a.clock ++ a.ending

-- Every field has room in its digits.
structure Widths (a : UtcTime) : Prop where
  year   : a.year < 10 ^ 4
  month  : a.month < 10 ^ 2
  day    : a.day < 10 ^ 2
  hour   : a.hour < 10 ^ 2
  minute : a.minute < 10 ^ 2
  second : a.second < 10 ^ 2

theorem widths (a : UtcTime) : a.Widths where
  year   := a.year_lt
  month  := Nat.lt_of_le_of_lt a.isDay.month_le (by decide)
  day    := Nat.lt_of_le_of_lt (a.isDay.day_le.trans (Calendar.monthLength_le ..)) (by decide)
  hour   := a.hour_lt.trans (by decide)
  minute := a.minute_lt.trans (by decide)
  second := a.second_lt.trans (by decide)

-- The minutes since the beginning of the year zero.
def minutes (a : UtcTime) : Nat :=
  (Calendar.dayNumber a.year a.month a.day * 24 + a.hour) * 60 + a.minute

def part (a : UtcTime) : ℚ :=
  a.fraction.elim 0 Fraction.value

-- The seconds since the beginning of the minute.
def seconds (a : UtcTime) : ℚ :=
  a.second + a.part

-- The first time is strictly earlier than the second one.
def IsBefore (a b : UtcTime) : Prop :=
  a.minutes < b.minutes ∨ a.minutes = b.minutes ∧ a.seconds < b.seconds

instance (a b : UtcTime) : Decidable (a.IsBefore b) :=
  inferInstanceAs (Decidable (_ ∨ _))

-- The first fields that differ decide, or else what is said about the rest of a second.
def Lex (a b : UtcTime) (p : Prop) : Prop :=
  a.year < b.year ∨ a.year = b.year ∧ (a.month < b.month ∨ a.month = b.month ∧
    (a.day < b.day ∨ a.day = b.day ∧ (a.hour < b.hour ∨ a.hour = b.hour ∧
      (a.minute < b.minute ∨ a.minute = b.minute ∧ (a.second < b.second ∨ a.second = b.second ∧ p)))))

-- Everything but the fraction is the same.
structure SameSecond (a b : UtcTime) : Prop where
  year   : a.year = b.year
  month  : a.month = b.month
  day    : a.day = b.day
  hour   : a.hour = b.hour
  minute : a.minute = b.minute
  second : a.second = b.second

theorem sameSecond_iff : a.SameSecond b ↔ a.year = b.year ∧ a.month = b.month ∧ a.day = b.day ∧
    a.hour = b.hour ∧ a.minute = b.minute ∧ a.second = b.second where
  mp h  := ⟨h.year, h.month, h.day, h.hour, h.minute, h.second⟩
  mpr h := ⟨h.1, h.2.1, h.2.2.1, h.2.2.2.1, h.2.2.2.2.1, h.2.2.2.2.2⟩

instance (a b : UtcTime) : Decidable (a.SameSecond b) :=
  decidable_of_iff _ sameSecond_iff.symm

theorem lex_iff : a.Lex b p ↔ a.Lex b False ∨ a.SameSecond b ∧ p := by
  rw [sameSecond_iff, Lex, Lex]
  grind

theorem before_text_iff : Before a.text b.text ↔ a.Lex b (Before a.ending b.ending) := by
  have h := a.widths
  have h' := b.widths
  simp only [text, clock, Lex, List.append_assoc, List.cons_append,
    before_cons_iff, Char.lt_irrefl, false_or, true_and,
    before_numeral_append_iff h.year h'.year, before_numeral_append_iff h.month h'.month,
    before_numeral_append_iff h.day h'.day, before_numeral_append_iff h.hour h'.hour,
    before_numeral_append_iff h.minute h'.minute, before_numeral_append_iff h.second h'.second]

theorem part_nonneg (a : UtcTime) : 0 ≤ a.part := by
  unfold part
  cases a.fraction
  case none   => exact le_rfl
  case some f => exact Fraction.part_nonneg f.digits

theorem part_lt_one (a : UtcTime) : a.part < 1 := by
  unfold part
  cases a.fraction
  case none   => exact zero_lt_one
  case some f => exact Fraction.part_lt_one f.digits

theorem seconds_lt_iff :
    a.seconds < b.seconds ↔ a.second < b.second ∨ a.second = b.second ∧ a.part < b.part := by
  have ha := a.part_nonneg
  have hb := b.part_nonneg
  have ha' := a.part_lt_one
  have hb' := b.part_lt_one
  unfold seconds
  rcases Nat.lt_trichotomy a.second b.second with h | h | h
  case inl     =>
    have hs : (a.second : ℚ) + 1 ≤ b.second := by exact_mod_cast h
    refine iff_of_true ?_ (.inl h)
    linarith
  case inr.inl => simp [h]
  case inr.inr =>
    have hs : (b.second : ℚ) + 1 ≤ a.second := by exact_mod_cast h
    refine iff_of_false ?_ (by omega)
    linarith

theorem isBefore_iff : a.IsBefore b ↔ a.Lex b (a.part < b.part) := by
  have hd := Calendar.dayNumber_lt_iff a.isDay b.isDay
  have he : Calendar.dayNumber a.year a.month a.day = Calendar.dayNumber b.year b.month b.day ↔
      a.year = b.year ∧ a.month = b.month ∧ a.day = b.day :=
    ⟨Calendar.dayNumber_inj a.isDay b.isDay, fun ⟨h₁, h₂, h₃⟩ => by rw [h₁, h₂, h₃]⟩
  have ha := a.hour_lt
  have ha' := a.minute_lt
  have hb := b.hour_lt
  have hb' := b.minute_lt
  have hm : a.minutes < b.minutes ↔
      Calendar.dayNumber a.year a.month a.day < Calendar.dayNumber b.year b.month b.day ∨
      Calendar.dayNumber a.year a.month a.day = Calendar.dayNumber b.year b.month b.day ∧
        (a.hour < b.hour ∨ a.hour = b.hour ∧ a.minute < b.minute) := by
    unfold minutes
    omega
  have hm' : a.minutes = b.minutes ↔
      Calendar.dayNumber a.year a.month a.day = Calendar.dayNumber b.year b.month b.day ∧
        a.hour = b.hour ∧ a.minute = b.minute := by
    unfold minutes
    omega
  rw [IsBefore, hm, hm', hd, he, seconds_lt_iff, Lex]
  grind

theorem SameSecond.symm (h : a.SameSecond b) : b.SameSecond a :=
  ⟨h.year.symm, h.month.symm, h.day.symm, h.hour.symm, h.minute.symm, h.second.symm⟩

theorem SameSecond.not_lex (h : a.SameSecond b) : ¬a.Lex b False := by
  simp [Lex, h.year, h.month, h.day, h.hour, h.minute, h.second]

-- The texts of two times, the first of which is before the second one, are in the order of the times:
-- in one second both need a fraction.
def KeepsOrder (a b : UtcTime) : Prop :=
  a.SameSecond b → ∃ f ∈ a.fraction, ∃ g ∈ b.fraction, f.KeepsOrder g

instance (a b : UtcTime) : Decidable (a.KeepsOrder b) :=
  inferInstanceAs (Decidable (_ → _))

theorem mark_cases (f : Fraction) : f.mark = '.' ∨ f.mark = ',' := by
  simpa [Timestamp.isFractionMark] using f.isMark

theorem mark_after (f : Fraction) : 'Z' ≠ f.mark ∧ ¬('Z' < f.mark) := by
  rcases mark_cases f with h | h <;> rw [h] <;> decide

theorem ending_inj (h : a.ending = b.ending) : a.part = b.part := by
  unfold ending at h
  unfold part
  cases ha : a.fraction
  case none   =>
    cases hb : b.fraction
    case none   => rfl
    case some g =>
      rw [ha, hb] at h
      exact absurd (List.cons.inj h).1 (mark_after g).1
  case some f =>
    cases hb : b.fraction
    case none   =>
      rw [ha, hb] at h
      exact absurd (List.cons.inj h).1.symm (mark_after f).1
    case some g =>
      rw [ha, hb] at h
      have hd : f.digits.map Fraction.digit = g.digits.map Fraction.digit :=
        (List.cons.inj <| List.append_cancel_right h).2
      have hi : Function.Injective Fraction.digit := fun d e h =>
        Fin.ext <| digitChar_inj d.isLt e.isLt h
      exact congrArg Fraction.part <| List.map_injective_iff.mpr hi hd

theorem before_ending_iff (h : a.part < b.part) : Before a.ending b.ending ↔
    ∃ f ∈ a.fraction, ∃ g ∈ b.fraction, f.KeepsOrder g := by
  unfold ending
  unfold part at h
  cases ha : a.fraction
  case none   =>
    cases hb : b.fraction
    case none   =>
      rw [ha, hb] at h
      exact absurd h (lt_irrefl _)
    case some g =>
      simp [Fraction.text, before_cons_iff, mark_after g]
  case some f =>
    cases hb : b.fraction
    case none   =>
      rw [ha, hb] at h
      exact absurd h (Fraction.part_nonneg _).not_gt
    case some g =>
      rw [ha, hb] at h
      have hm : f.mark < g.mark ↔ f.mark = ',' ∧ g.mark = '.' := by
        rcases mark_cases f with hf | hf <;> rcases mark_cases g with hg | hg <;>
          rw [hf, hg] <;> decide
      simp only [Option.elim, Fraction.text, List.cons_append, before_cons_iff, hm,
        Fraction.before_digits_iff h]
      simp [Fraction.KeepsOrder]

-- Times that are written in one form have their texts in order.
theorem keepsOrder_of_form (h : a.IsBefore b)
    (hf : a.fraction.map Fraction.form = b.fraction.map Fraction.form) : a.KeepsOrder b := by
  intro hs
  have hp : a.part < b.part := by
    rcases lex_iff.mp (isBefore_iff.mp h) with hl | ⟨_, hp⟩
    case inl => exact absurd hl hs.not_lex
    case inr => exact hp
  unfold part at hp
  cases ha : a.fraction
  case none   =>
    rw [ha, Option.map_none, eq_comm, Option.map_eq_none_iff] at hf
    rw [ha, hf] at hp
    exact absurd hp (lt_irrefl _)
  case some f =>
    rw [ha, Option.map_some, eq_comm] at hf
    obtain ⟨g, hb, hg⟩ := Option.map_eq_some_iff.mp hf
    have ⟨hm, hl⟩ := Prod.mk.inj hg
    refine ⟨f, rfl, g, hb, .inr ⟨hm.symm, fun hd => ?_⟩⟩
    rw [ha, hb] at hp
    exact absurd (congrArg Fraction.part (hd.eq_of_length hl.symm)) hp.ne

theorem before_text (h : a.IsBefore b) :
    (a.KeepsOrder b → Before a.text b.text) ∧ (¬a.KeepsOrder b → Before b.text a.text) := by
  rcases lex_iff.mp (isBefore_iff.mp h) with hl | ⟨hs, hp⟩
  case inl =>
    refine ⟨fun _ => before_text_iff.mpr <| lex_iff.mpr <| .inl hl, fun hn => ?_⟩
    exact absurd (fun hs : a.SameSecond b => absurd hl hs.not_lex) hn
  case inr =>
    constructor
    case left  =>
      intro hk
      exact before_text_iff.mpr <| lex_iff.mpr <| .inr ⟨hs, (before_ending_iff hp).mpr (hk hs)⟩
    case right =>
      intro hn
      have he : ¬Before a.ending b.ending := fun he => hn fun _ => (before_ending_iff hp).mp he
      have hb := (before_or_before fun he => hp.ne (ending_inj he)).resolve_left he
      exact before_text_iff.mpr <| lex_iff.mpr <| .inr ⟨hs.symm, hb⟩

end UtcTime

namespace RecordStore

variable {s : RecordStore} {i j : Nat} {r r' : Record}

-- In a sorted list one of two members comes first if the other one must not.
theorem pair_sublist_of_pairwise {α : Type} {l : List α} {x y : α} {order : α → α → Prop}
    (hp : l.Pairwise order) (hx : x ∈ l) (hy : y ∈ l) (hn : x ≠ y) (h : ¬order y x) :
    [x, y].Sublist l := by
  obtain ⟨before, after, rfl⟩ := List.mem_iff_append.mp hx
  rcases List.mem_append.mp hy with hy | hy
  case inl =>
    exact absurd ((List.pairwise_append.mp hp).2.2 y hy x (List.mem_cons_self ..)) h
  case inr =>
    have hy := (List.mem_cons.mp hy).resolve_left hn.symm
    exact ((List.singleton_sublist.mpr hy).cons_cons x).trans (List.sublist_append_right ..)

-- Of two records with different timestamps one comes before the other.
theorem chronological_pair (hi : s.records[i]? = some r) (hj : s.records[j]? = some r')
    (h : Before r.timestamp r'.timestamp) :
    [i, j].Sublist s.chronological ∧ ¬[j, i].Sublist s.chronological := by
  have hp := s.precedes_chronological
  have hm {i r} (h : s.records[i]? = some r) : i ∈ s.chronological :=
    s.chronological_chronological.perm.mem_iff.mpr <|
      List.mem_range.mpr (List.getElem?_eq_some_iff.mp h).1
  have hn : ¬s.Precedes j i := by
    rintro ⟨_, _, hr', hr, ht⟩
    obtain rfl := Option.some.inj <| hj.symm.trans hr'
    obtain rfl := Option.some.inj <| hi.symm.trans hr
    rcases ht with ht | ⟨ht, _⟩
    case inl => exact h.asymm <| bytes_lt_iff.mp ht
    case inr => exact h.asymm <| ht ▸ h
  refine ⟨pair_sublist_of_pairwise hp (hm hi) (hm hj) ?_ hn, fun hs => hn ?_⟩
  case refine_1 =>
    rintro rfl
    obtain rfl := Option.some.inj <| hi.symm.trans hj
    exact h.asymm h
  case refine_2 => exact List.rel_of_pairwise_cons (hp.sublist hs) (List.mem_singleton_self i)

-- Two records whose timestamps mean different times are listed in the order of these times unless
-- both are in one second and their texts are not in that order; then they are listed the other way.
-- Timestamps that are written in one form always are in order.
theorem chronological_iff {a b : UtcTime}
    (hi : (s.records[i]?).map (·.timestamp) = some a.text)
    (hj : (s.records[j]?).map (·.timestamp) = some b.text) (h : a.IsBefore b) :
    ([i, j].Sublist s.chronological ↔ a.KeepsOrder b) ∧
    ([j, i].Sublist s.chronological ↔ ¬a.KeepsOrder b) ∧
    (a.fraction.map Fraction.form = b.fraction.map Fraction.form → [i, j].Sublist s.chronological) := by
  obtain ⟨r, hi, ha⟩ := Option.map_eq_some_iff.mp hi
  obtain ⟨r', hj, hb⟩ := Option.map_eq_some_iff.mp hj
  have ⟨ht, ht'⟩ := UtcTime.before_text h
  rw [← ha, ← hb] at ht ht'
  by_cases hk : a.KeepsOrder b
  case pos =>
    have ⟨hs, hn⟩ := chronological_pair hi hj (ht hk)
    exact ⟨iff_of_true hs hk, iff_of_false hn (not_not_intro hk), fun _ => hs⟩
  case neg =>
    have ⟨hs, hn⟩ := chronological_pair hj hi (ht' hk)
    exact ⟨iff_of_false hn hk, iff_of_true hs hk,
      fun hf => absurd (UtcTime.keepsOrder_of_form h hf) hk⟩

-- The first record is later than the second one, whose fraction its own begins with, and is listed
-- before it; the third one is in a later second.
theorem chronological_iff_longer :
    let t := "2025-04-20T03:16:50.55Z INFO a: b\n2025-04-20T03:16:50.5Z INFO c: d\n".toList ++
      "2025-04-20T03:16:51,1Z INFO e: f\n".toList
    let s := (RecordStore.empty.load .standard t).2
    [0, 1].Sublist s.chronological ∧ [0, 2].Sublist s.chronological ∧
      [1, 2].Sublist s.chronological := by
  intro t s
  let time (second : Fin 61) (f : Fraction) : UtcTime :=
    ⟨2025, 4, 20, 3, 16, second, some f, by decide, ⟨by decide, by decide, by decide⟩, by decide,
      by decide, second.isLt⟩
  let short : Fraction := ⟨'.', [5], by decide, nofun⟩
  let long : Fraction := ⟨'.', [5, 5], by decide, nofun⟩
  let other : Fraction := ⟨',', [1], by decide, nofun⟩
  have h₀ : (s.records[0]?).map (·.timestamp) = some (time 50 long).text := by decide +kernel
  have h₁ : (s.records[1]?).map (·.timestamp) = some (time 50 short).text := by decide +kernel
  have h₂ : (s.records[2]?).map (·.timestamp) = some (time 51 other).text := by decide +kernel
  have h₁₀ : (time 50 short).IsBefore (time 50 long) := by decide +kernel
  have h₀₂ : (time 50 long).IsBefore (time 51 other) := by decide +kernel
  have h₁₂ : (time 50 short).IsBefore (time 51 other) := by decide +kernel
  exact ⟨(chronological_iff h₁ h₀ h₁₀).2.1.mpr (by decide +kernel),
    (chronological_iff h₀ h₂ h₀₂).1.mpr (by decide +kernel),
    (chronological_iff h₁ h₂ h₁₂).1.mpr (by decide +kernel)⟩

-- A time without a fraction is listed after a later one in its second.
theorem chronological_whole_second :
    ∃ (t : Text) (a b : UtcTime), a.IsBefore b ∧
      (RecordStore.empty.load .standard t).2.records.map (·.timestamp) = [a.text, b.text] ∧
      ¬[0, 1].Sublist (RecordStore.empty.load .standard t).2.chronological := by
  let t := "2025-04-20T03:16:50Z INFO a: b\n2025-04-20T03:16:50.5Z INFO c: d\n".toList
  let s := (RecordStore.empty.load .standard t).2
  let time (f : Option Fraction) : UtcTime :=
    ⟨2025, 4, 20, 3, 16, 50, f, by decide, ⟨by decide, by decide, by decide⟩, by decide,
      by decide, by decide⟩
  let half : Fraction := ⟨'.', [5], by decide, nofun⟩
  have hr : s.records.map (·.timestamp) = [(time none).text, (time (some half)).text] := by
    decide +kernel
  have hi (i : Nat) : (s.records[i]?).map (·.timestamp) =
      [(time none).text, (time (some half)).text][i]? := by
    rw [← hr, List.getElem?_map]
  obtain ⟨r, h₀, hr₀⟩ := Option.map_eq_some_iff.mp (hi 0)
  obtain ⟨r', h₁, hr₁⟩ := Option.map_eq_some_iff.mp (hi 1)
  refine ⟨t, time none, time (some half), by decide +kernel, hr, ?_⟩
  exact (chronological_pair h₁ h₀ (hr₀ ▸ hr₁ ▸ by decide +kernel)).2

end RecordStore

end LogOrigin
