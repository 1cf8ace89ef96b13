import LogOrigin.Log.Header
import LogOrigin.Proofs.Text.Blank
import Mathlib.Data.List.Forall2

-- The start of a log line as it is written: a timestamp and a word for a level with a space behind
-- each. It is read back, and the grammars for plain lines are the only ones that such lines have.

namespace LogOrigin

open Text

namespace Text

variable {c : Char} {t : Text}

-- A text with one character for every class of a shape.
def Fits (s : List (Char → Bool)) (t : Text) : Prop :=
  List.Forall₂ (fun p c => p c = true) s t

theorem Fits.takeShape {s : List (Char → Bool)} (h : Fits s t) (r : Text) :
    takeShape s (t ++ r) = some (t, r) := by
  induction h
  case nil          => rfl
  case cons hc _ hi => simp [Text.takeShape, hc, hi]

theorem fits_of_takeShape {s : List (Char → Bool)} {r u : Text}
    (h : takeShape s u = some (t, r)) : Fits s t := by
  induction s generalizing t u
  case nil         => cases h; exact .nil
  case cons p s hi =>
    cases u
    case nil      => cases h
    case cons c u =>
      rw [takeShape] at h
      obtain ⟨hc, h⟩ := Option.ite_none_right_eq_some.mp h
      obtain ⟨⟨a, v⟩, ha, he⟩ := Option.map_eq_some_iff.mp h
      cases he
      exact .cons hc (hi ha)

theorem Fits.notMem {s : List (Char → Bool)} (h : Fits s t) (hs : ∀ p ∈ s, p c = false) : c ∉ t := by
  induction h
  case nil           => nofun
  case cons hp _ hi  =>
    have ⟨hc, hs⟩ := List.forall_mem_cons.mp hs
    rintro (_ | ⟨_, hm⟩)
    case head => simp [hc] at hp
    case tail => exact hi hs hm

theorem takeWord_cons (d c : Char) (w t : Text) :
    takeWord (d :: w) (c :: t) =
      if asciiUpper c = d then (takeWord w t).map fun r => (c :: r.1, r.2) else none := by
  simp [takeWord, takeShape]

theorem takeWord_eq_some {w a r : Text} :
    takeWord w t = some (a, r) ↔ t = a ++ r ∧ a.map asciiUpper = w := by
  induction w generalizing t a
  case nil         =>
    simp only [takeWord, List.map_nil, takeShape, Option.some.injEq, Prod.mk.injEq,
      List.map_eq_nil_iff]
    constructor
    case mp  => rintro ⟨rfl, rfl⟩; exact ⟨rfl, rfl⟩
    case mpr => rintro ⟨rfl, rfl⟩; exact ⟨rfl, rfl⟩
  case cons d w hi =>
    cases a
    case nil      => cases t <;> simp [takeWord, takeShape]
    case cons c a =>
      cases t
      case nil      => simp [takeWord, takeShape]
      case cons e t =>
        by_cases he : asciiUpper e = d
        case pos => simp [takeWord_cons, he, hi, Option.map_eq_some_iff]; grind
        case neg => simp [takeWord_cons, he]; rintro rfl; simp [he]

end Text

namespace Timestamp

inductive IsFraction : Text → Prop
  | none : IsFraction []
  | some {c d t} :
    isFractionMark c = true → isDigit d = true → (∀ e ∈ t, isDigit e = true) →
    IsFraction (c :: d :: t)

inductive IsZone : Text → Prop
  | none : IsZone []
  | utc : IsZone ['Z']
  | colon {t} : Fits [isSign, isDigit, isDigit, (· == ':'), isDigit, isDigit] t → IsZone t
  | plain {t} : Fits [isSign, isDigit, isDigit, isDigit, isDigit] t → IsZone t

-- A date and a time, with a fraction of a second and a time zone that may be missing.
inductive IsTimestamp : Text → Prop
  | of {t f z} : Fits shape t → IsFraction f → IsZone z → IsTimestamp (t ++ (f ++ z))

variable {c : Char} {t f z r : Text}

theorem isSign_ne (h : isSign c = true) : c ≠ 'Z' := by
  rintro rfl
  cases h

theorem isDigit_ne_colon (h : isDigit c = true) : c ≠ ':' := by
  rintro rfl
  cases h

theorem IsZone.take (h : IsZone z) (t r : Text) :
    takeThen (t, z ++ ' ' :: r) takeZone = (t ++ z, ' ' :: r) := by
  cases h
  case none    =>
    have hs : isSign ' ' = false := rfl
    simp [takeThen, takeZone, takeShape, hs]
  case utc     => simp [takeThen, takeZone, takeShape]
  case colon h =>
    rcases h with _ | ⟨hs, _ | ⟨h₁, _ | ⟨h₂, _ | ⟨h₃, _ | ⟨h₄, _ | ⟨h₅, _ | _⟩⟩⟩⟩⟩⟩
    simp_all [takeThen, takeZone, takeShape, isSign_ne hs]
  case plain h =>
    rcases h with _ | ⟨hs, _ | ⟨h₁, _ | ⟨h₂, _ | ⟨h₃, _ | ⟨h₄, _ | _⟩⟩⟩⟩⟩
    simp_all [takeThen, takeZone, takeShape, isSign_ne hs, isDigit_ne_colon h₃]

-- A zone, or else the space behind the timestamp, can not continue a fraction.
theorem IsZone.head (h : IsZone z) (r : Text) : ∃ c t, z ++ ' ' :: r = c :: t ∧
    isFractionMark c = false ∧ isDigit c = false := by
  have hs {c} (h : isSign c = true) : isFractionMark c = false ∧ isDigit c = false := by
    simp only [isSign, Bool.or_eq_true, beq_iff_eq] at h
    rcases h with rfl | rfl <;> decide
  cases h
  case none    => exact ⟨_, _, rfl, by decide⟩
  case utc     => exact ⟨_, _, rfl, by decide⟩
  case colon h => rcases h with _ | ⟨h, _⟩; exact ⟨_, _, rfl, hs h⟩
  case plain h => rcases h with _ | ⟨h, _⟩; exact ⟨_, _, rfl, hs h⟩

theorem IsFraction.take (hf : IsFraction f) (hz : IsZone z) (t r : Text) :
    takeThen (t, f ++ (z ++ ' ' :: r)) (takeFraction isFractionMark) = (t ++ f, z ++ ' ' :: r) := by
  obtain ⟨c, u, hu, hm, hd⟩ := hz.head r
  rw [hu]
  cases hf
  case none              => simp [takeThen, takeFraction, hm]
  case some hm' hd' ht  =>
    simp [takeThen, takeFraction, takeRun, hm', hd', List.takeWhile_append_of_pos ht,
      List.dropWhile_append_of_pos ht, hd]

theorem IsTimestamp.take (h : IsTimestamp t) (r : Text) :
    take (t ++ ' ' :: r) = some (t, ' ' :: r) := by
  cases h
  case of t f z ht hf hz =>
    have := ht.takeShape (f ++ (z ++ ' ' :: r))
    simp [Timestamp.take, this, hf.take hz, hz.take]

theorem IsTimestamp.head (h : IsTimestamp t) : ∃ c u, t = c :: u ∧ isDigit c = true := by
  cases h
  case of ht _ _ =>
    rcases ht with _ | ⟨hd, _⟩
    exact ⟨_, _, rfl, hd⟩

end Timestamp

namespace Level

variable {w r : Text} {l : Level}

-- A word for a level, in any case.
def IsWord (w : Text) (l : Level) : Prop :=
  (w.map asciiUpper, l) ∈ words

-- A word that stands before another one in the list does not start that one. The character behind
-- the word is in no word.
theorem findSome?_takeWord {ws : List (Text × Level)} {d : Char} (hw : (w.map asciiUpper, l) ∈ ws)
    (hp : ws.Pairwise fun u v => ¬u.1 <+: v.1) (hs : ∀ u ∈ ws, asciiUpper d ∉ u.1) (r : Text) :
    (ws.findSome? fun u => (takeWord u.1 (w ++ d :: r)).map fun p => (u.2, p.2)) =
      some (l, d :: r) := by
  induction ws
  case nil          => cases hw
  case cons u ws hi =>
    have ⟨hu, hp⟩ := List.pairwise_cons.mp hp
    have ⟨hs, hs'⟩ := List.forall_mem_cons.mp hs
    rcases List.mem_cons.mp hw with rfl | hw
    case inl =>
      have := takeWord_eq_some.mpr ⟨Eq.refl (w ++ d :: r), rfl⟩
      simp [this]
    case inr =>
      have hn : takeWord u.1 (w ++ d :: r) = none := by
        match h : takeWord u.1 (w ++ d :: r) with
        | none        => rfl
        | some (a, q) =>
          obtain ⟨ha, he⟩ := takeWord_eq_some.mp h
          rcases List.append_eq_append_iff.mp ha with ⟨b, rfl, hb⟩ | ⟨b, rfl, _⟩
          case inl =>
            cases b
            case nil      => exact absurd (by simp [← he]) (hu _ hw)
            case cons c b =>
              obtain ⟨rfl, _⟩ := List.cons.inj hb
              exact absurd (he ▸ List.mem_map.mpr ⟨d, by simp, rfl⟩) hs
          case inr => exact absurd (by simp [← he]) (hu _ hw)
      simp [hn, hi hw hp hs']

theorem IsWord.take (h : IsWord w l) (r : Text) : take (w ++ ' ' :: r) = some (l, ' ' :: r) :=
  findSome?_takeWord h (by decide) (by decide) r

theorem IsWord.take_bracket (h : IsWord w l) (r : Text) :
    Level.take (w ++ ']' :: r) = some (l, ']' :: r) :=
  findSome?_takeWord h (by decide) (by decide) r

theorem IsWord.forall_mem (h : IsWord w l) : ∀ c ∈ w, isAsciiLetter c = true := by
  have hu : ∀ u ∈ words, ∀ d ∈ u.1, isAsciiUpper d = true := by decide
  intro c hc
  have hc := hu _ h _ (List.mem_map.mpr ⟨c, hc, rfl⟩)
  unfold asciiUpper at hc
  split at hc
  case isTrue hl => simp [isAsciiLetter, hl]
  case isFalse   => simp [isAsciiLetter, hc]

theorem IsWord.head (h : IsWord w l) : ∃ c t, w = c :: t ∧ isBlank c = false ∧ c ≠ '[' := by
  cases w
  case nil      =>
    have hn : ∀ u ∈ words, u.1 ≠ [] := by decide
    exact absurd rfl (hn _ h)
  case cons c w =>
    have hu : ∀ u ∈ words, ∀ d ∈ u.1.head?, d ∉ '[' :: blanks := by decide
    have hb : ∀ d ∈ '[' :: blanks, asciiUpper d = d := by decide
    have hc : c ∉ '[' :: blanks := fun hc => hu _ h _ rfl <| (hb c hc).symm ▸ hc
    refine ⟨c, w, rfl, ?_, by rintro rfl; simp at hc⟩
    cases hn : isBlank c
    case false => rfl
    case true  => exact absurd (List.mem_cons_of_mem _ (mem_blanks hn)) hc

end Level

namespace Header

variable {ts w rest : Text} {l : Level}

theorem read_text (ht : Timestamp.IsTimestamp ts) (hw : Level.IsWord w l)
    (hb : ∀ c ∈ rest.head?, isBlank c = false) (hn : '\n' ∉ rest) :
    read (ts ++ ' ' :: (w ++ ' ' :: rest)) = some ⟨ts, l, rest⟩ := by
  have hs : isBlank ' ' = true := rfl
  have hd : dropOptional '[' (trimStart (ts ++ ' ' :: (w ++ ' ' :: rest))) =
      ts ++ ' ' :: (w ++ ' ' :: rest) := by
    obtain ⟨c, u, rfl, hc⟩ := ht.head
    have hc' : c ≠ '[' := by rintro rfl; cases hc
    simp [trimStart, isBlank_of_isDigit hc, dropOptional, hc']
  have hl : dropOptional '[' (trimStart (w ++ ' ' :: rest)) = w ++ ' ' :: rest := by
    obtain ⟨c, u, rfl, hc, hc'⟩ := hw.head
    simp [trimStart, hc, dropOptional, hc']
  have hr : rest.all (· != '\n') = true := by
    simp only [List.all_eq_true, bne_iff_ne]
    rintro c hc rfl
    exact hn hc
  have hb' : dropBlanks? (' ' :: rest) = some rest := by
    simp [dropBlanks?, hs, trimStart_eq hb]
  have hw' : dropBlanks? (' ' :: (w ++ ' ' :: rest)) = some (trimStart (w ++ ' ' :: rest)) := by
    simp [dropBlanks?, hs]
  have hc : dropOptional ']' (' ' :: rest) = ' ' :: rest ∧
      dropOptional ':' (' ' :: rest) = ' ' :: rest := ⟨rfl, rfl⟩
  have hc' : dropOptional ']' (' ' :: (w ++ ' ' :: rest)) = ' ' :: (w ++ ' ' :: rest) := rfl
  simp only [read, hd, ht.take, hc', hw', hl, hw.take, hc.1, hc.2, hb', hr, Option.bind_eq_bind,
    Option.bind_some, if_true]

end Header

end LogOrigin
