import LogOrigin.Proofs.Text.Blank
import LogOrigin.Proofs.Text.Trim
import Mathlib.Data.List.Basic

-- The words of a text, and words with a space between any two: such a text has no blanks to take off
-- or to squeeze, and its words are those that it has been made of.

namespace LogOrigin.Text

-- Words with blanks between them. There may be blanks in front of the first word and behind the last
-- one.
inductive Separated : List Text → Text → Prop
  | blanks {b} (hb : ∀ c ∈ b, isBlank c = true) : Separated [] b
  | word {b w t ws} (hb : ∀ c ∈ b, isBlank c = true) (hn : w ≠ [])
    (hw : ∀ c ∈ w, isBlank c = false) (ht : ∀ c ∈ t.head?, isBlank c = true)
    (h : Separated ws t) : Separated (w :: ws) (b ++ (w ++ t))

variable {b s t w : Text} {l ws : List Text}

theorem Separated.forall_mem (h : Separated ws t) :
    ∀ w ∈ ws, w ≠ [] ∧ ∀ c ∈ w, isBlank c = false := by
  induction h
  case blanks           => nofun
  case word hn hw _ _ hi => exact List.forall_mem_cons.mpr ⟨⟨hn, hw⟩, hi⟩

theorem Separated.append_blanks (h : Separated ws t) (hb : ∀ c ∈ b, isBlank c = true) :
    Separated ws (t ++ b) := by
  induction h
  case blanks ha => exact .blanks <| List.forall_mem_append.mpr ⟨ha, hb⟩
  case word a w t ws ha hn hw ht _ hi =>
    have hh : ∀ c ∈ (t ++ b).head?, isBlank c = true := by
      cases t
      case nil  => exact fun c hc => hb c (List.mem_of_mem_head? hc)
      case cons => exact ht
    rw [List.append_assoc, List.append_assoc]
    exact .word ha hn hw hh hi

-- A text begins with blanks and a word behind them.
theorem exists_separated (t : Text) : ∃ ws, Separated ws t := by
  have ⟨b, r, hr, hb, hh⟩ := exists_leading isBlank t
  have ⟨w, u, hu, hw, ht⟩ := exists_leading (!isBlank ·) r
  cases w
  case nil       =>
    have hn : u = [] := by cases u <;> simp_all
    exact ⟨[], .blanks (by simpa [hr, hu, hn] using hb)⟩
  case cons c w =>
    have ⟨ws, h⟩ := exists_separated u
    rw [hr, hu]
    exact ⟨_, .word hb (by simp) (by simpa using hw) (by simpa using ht) h⟩
termination_by t.length
decreasing_by simp [hr, hu]; omega

@[simp]
theorem words_nil : words [] = [] :=
  rfl

theorem words.go_append (hw : ∀ c ∈ w, isBlank c = false) (acc t : Text) :
    words.go acc (w ++ t) = words.go (w.reverse ++ acc) t := by
  induction w generalizing acc
  case nil         => rfl
  case cons c w hi =>
    have ⟨hc, hw⟩ := List.forall_mem_cons.mp hw
    rw [List.cons_append, words.go, if_neg (by simp [hc]), hi hw]
    simp

theorem words_blanks_append (hb : ∀ c ∈ b, isBlank c = true) (t : Text) :
    words (b ++ t) = words t := by
  induction b
  case nil         => rfl
  case cons c b hi =>
    have ⟨hc, hb⟩ := List.forall_mem_cons.mp hb
    rw [← hi hb, List.cons_append, words, words.go, if_pos hc]
    rfl

theorem words_append (hn : w ≠ []) (hw : ∀ c ∈ w, isBlank c = false)
    (ht : ∀ c ∈ t.head?, isBlank c = true) : words (w ++ t) = w :: words t := by
  rw [words, words.go_append hw]
  cases t
  case nil      => simp [words, words.go, hn]
  case cons c t => simp [words, words.go, hn, ht c rfl]

theorem Separated.words_eq (h : Separated ws t) : words t = ws := by
  induction h
  case blanks hb            => simpa using words_blanks_append hb []
  case word hb hn hw ht _ hi => rw [words_blanks_append hb, words_append hn hw ht, hi]

-- There is one way to take a text for words with blanks between them.
theorem separated_iff : Separated ws t ↔ ws = words t := by
  constructor
  case mp  => exact fun h => h.words_eq.symm
  case mpr =>
    have ⟨_, h⟩ := exists_separated t
    rintro rfl
    exact h.words_eq ▸ h

-- Words are not empty and hold no blanks.
theorem mem_words (h : w ∈ words t) : w ≠ [] ∧ ∀ c ∈ w, isBlank c = false :=
  (separated_iff.mpr rfl).forall_mem w h

theorem words_trim (t : Text) : words (trim t) = words t := by
  have ⟨a, b, ht, ha, hb⟩ := exists_trim t
  have h : Separated (words (trim t)) (trim t ++ b) := (separated_iff.mpr rfl).append_blanks hb
  calc words (trim t)
    _ = words (trim t ++ b)        := separated_iff.mp h
    _ = words (a ++ (trim t ++ b)) := (words_blanks_append ha _).symm
    _ = words t                    := by rw [← ht]

theorem squeeze_append (hs : ∀ c ∈ s, isBlank c = false) (t : Text) :
    squeeze (s ++ t) = s ++ squeeze t := by
  induction s
  case nil         => rfl
  case cons c s hi =>
    obtain ⟨hc, hs⟩ := List.forall_mem_cons.mp hs
    rw [List.cons_append, squeeze, hc, hi hs]
    rfl

theorem skip_eq (h : ∀ c ∈ t.head?, isBlank c = false) : squeeze.skip t = squeeze t := by
  cases t
  case nil      => rfl
  case cons c t => simp [squeeze.skip, squeeze, h c rfl]

section Words

variable (hl : ∀ s ∈ l, s ≠ [] ∧ ∀ c ∈ s, isBlank c = false)

include hl

theorem isBlank_head_joinWith : ∀ c ∈ (joinWith [' '] l).head?, isBlank c = false := by
  rcases l with _ | ⟨s, _ | ⟨u, l⟩⟩
  case nil       => simp [joinWith]
  case cons.nil  => exact fun c hc => (hl s (by simp)).2 c (List.mem_of_mem_head? hc)
  case cons.cons =>
    obtain ⟨hn, hs⟩ := hl s (by simp)
    obtain ⟨c, s, rfl⟩ := List.exists_cons_of_ne_nil hn
    simpa [joinWith] using hs c (by simp)

theorem joinWith_ne_nil (hn : l ≠ []) : joinWith [' '] l ≠ [] := by
  obtain ⟨s, l, rfl⟩ := List.exists_cons_of_ne_nil hn
  have hs := (hl s (by simp)).1
  cases l <;> simp [joinWith, hs]

theorem isBlank_last_joinWith : ∀ c ∈ (joinWith [' '] l).getLast?, isBlank c = false := by
  induction l using joinWith.induct
  case case1          => simp [joinWith]
  case case2 s        => exact fun c hc => (hl s (by simp)).2 c (List.mem_of_mem_getLast? hc)
  case case3 s u l hi =>
    have hl := (List.forall_mem_cons.mp hl).2
    rw [joinWith, List.getLast?_append_of_ne_nil _ (joinWith_ne_nil hl (by simp))]
    exact hi hl

theorem squeeze_joinWith : squeeze (joinWith [' '] l) = joinWith [' '] l := by
  induction l using joinWith.induct
  case case1          => rfl
  case case2 s        => simpa [joinWith, squeeze] using squeeze_append (hl s (by simp)).2 []
  case case3 s u l hi =>
    obtain ⟨hs, hl⟩ := List.forall_mem_cons.mp hl
    have ht : squeeze (' ' :: joinWith [' '] (u :: l)) = ' ' :: joinWith [' '] (u :: l) := by
      rw [squeeze, skip_eq (isBlank_head_joinWith hl), hi hl]
      rfl
    rw [joinWith, List.append_assoc, squeeze_append hs.2]
    exact congrArg (s ++ ·) ht

theorem trim_joinWith : trim (joinWith [' '] l) = joinWith [' '] l := by
  rw [trim, trimStart_eq (isBlank_head_joinWith hl), trimEnd, dropEndWhile_eq (isBlank_last_joinWith hl)]

theorem words_joinWith : words (joinWith [' '] l) = l := by
  induction l using joinWith.induct
  case case1          => rfl
  case case2 s        =>
    obtain ⟨hn, hs⟩ := hl s (by simp)
    simpa [joinWith] using words_append hn hs (t := []) (by simp)
  case case3 s u l hi =>
    obtain ⟨⟨hn, hs⟩, hl⟩ := List.forall_mem_cons.mp hl
    have hb : ∀ c ∈ [' '], isBlank c = true := by decide
    calc words (joinWith [' '] (s :: u :: l))
      _ = words (s ++ ([' '] ++ joinWith [' '] (u :: l))) := by rw [joinWith, List.append_assoc]
      _ = s :: words ([' '] ++ joinWith [' '] (u :: l))   := words_append hn hs (by simpa using hb)
      _ = s :: words (joinWith [' '] (u :: l))            := by rw [words_blanks_append hb]
      _ = s :: u :: l                                     := by rw [hi hl]

end Words

end LogOrigin.Text
