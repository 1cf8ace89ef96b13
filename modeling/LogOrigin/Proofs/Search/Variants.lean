import LogOrigin.Proofs.Lists
import LogOrigin.Proofs.Text.Words
import LogOrigin.Search.Cleaning
import Mathlib.Data.List.Forall2

-- The variants of a search text are its words without some of them at the ends. None of them is the
-- search text itself, however the words are spaced there: some words are missing.

namespace LogOrigin

open Text

namespace Cleaning

-- How many words are dropped in front and how many at the end, in the order in which it is tried.
def ways : List (Nat × Nat) :=
  [(1, 0), (0, 1), (2, 0), (0, 2), (1, 1)]

-- The ways that leave a word: of two words one can be dropped, of three words and more up to two.
def allowed (ws : List Text) : List (Nat × Nat) :=
  ways.filter fun way => way.1 + way.2 < ws.length

-- What is left of the words when they are dropped in a way.
def Leaves (ws : List Text) (way : Nat × Nat) (d : List Text) : Prop :=
  ∃ front back, ws = front ++ d ++ back ∧ front.length = way.1 ∧ back.length = way.2

-- Some of the words, but not all of them, that stand next to each other.
structure IsPart (ws d : List Text) : Prop where
  nonempty : d ≠ []
  within   : d <:+: ws
  proper   : d.length < ws.length

def remaining (ws : List Text) (way : Nat × Nat) : List Text :=
  (ws.drop way.1).take (ws.length - (way.1 + way.2))

variable {search v : Text} {d ws : List Text} {way : Nat × Nat}

theorem mem_allowed (h : way ∈ allowed ws) :
    0 < way.1 + way.2 ∧ way.1 + way.2 < ws.length := by
  have ⟨hm, hl⟩ := List.mem_filter.mp h
  have hp : ∀ way ∈ ways, 0 < way.1 + way.2 := by decide
  exact ⟨hp way hm, by simpa using hl⟩

theorem length_allowed_le (ws : List Text) : (allowed ws).length ≤ 5 :=
  List.length_filter_le ..

theorem leaves_remaining (h : way ∈ allowed ws) : Leaves ws way (remaining ws way) := by
  have ⟨_, h⟩ := mem_allowed h
  refine ⟨ws.take way.1, (ws.drop way.1).drop (ws.length - (way.1 + way.2)), ?_, ?_, ?_⟩
  case refine_1 => rw [remaining, List.append_assoc, List.take_append_drop, List.take_append_drop]
  case refine_2 =>
    rw [List.length_take]
    omega
  case refine_3 =>
    rw [List.length_drop, List.length_drop]
    omega

theorem Leaves.isPart (hw : way ∈ allowed ws) (h : Leaves ws way d) : IsPart ws d := by
  have ⟨front, back, he, hf, hb⟩ := h
  have ⟨hp, hl⟩ := mem_allowed hw
  have hn : ws.length = way.1 + d.length + way.2 := by
    rw [he, List.length_append, List.length_append, hf, hb]
  constructor
  case nonempty => exact List.ne_nil_of_length_pos (by omega)
  case within   => exact ⟨front, back, he.symm⟩
  case proper   => omega

theorem drops_eq (ws : List Text) : drops ws = (allowed ws).map (remaining ws) := by
  unfold drops
  -- There are three words and more, two words, or fewer.
  split <;> split
  case isTrue.isTrue h₂ h₃ =>
    have ha : allowed ws = ways := List.filter_eq_self.mpr <| by simp [ways]; omega
    simp [ha, ways, remaining]
  case isTrue.isFalse h₂ h₃ =>
    have hl : ws.length = 2 := by omega
    have ha : allowed ws = [(1, 0), (0, 1)] := by rw [allowed, hl]; rfl
    simp [ha, remaining]
  case isFalse.isTrue => omega
  case isFalse.isFalse =>
    have ha : allowed ws = [] := List.filter_eq_nil_iff.mpr <| by simp [ways]; omega
    simp [ha]

theorem leaves_drops (ws : List Text) : List.Forall₂ (Leaves ws) (allowed ws) (drops ws) := by
  rw [drops_eq, List.forall₂_map_right_iff]
  exact List.forall₂_same.mpr fun way hw => leaves_remaining hw

theorem isPart_of_mem_drops (h : d ∈ drops ws) : IsPart ws d := by
  rw [drops_eq] at h
  have ⟨way, hw, h⟩ := List.mem_map.mp h
  exact h ▸ (leaves_remaining hw).isPart hw

theorem length_drops_le (ws : List Text) : (drops ws).length ≤ 5 := by
  rw [drops_eq, List.length_map]
  exact length_allowed_le ws

theorem foldl_addNew (search : Text) (l : List Text) :
    l.foldl (addNew search) [] = (l.filter (· != search)).eraseDups := by
  have ha : addNew search = fun k t => if t != search && !k.elem t then k ++ [t] else k := by
    funext k t
    by_cases ht : t = search <;> by_cases hk : t ∈ k <;> simp [addNew, ht, hk]
  rw [ha, Lists.foldl_new]

theorem IsPart.isBlank (h : IsPart (words search) d) :
    ∀ w ∈ d, w ≠ [] ∧ ∀ c ∈ w, isBlank c = false :=
  fun _ hw => mem_words (h.within.subset hw)

-- A part of the words of a text has fewer words than the text, and blanks at the ends of the text do
-- not matter for its words.
theorem IsPart.ne_trim (h : IsPart (words search) d) : joinWith [' '] d ≠ trim search := by
  intro he
  have hw : d = words search := by rw [← words_trim, ← he, words_joinWith h.isBlank]
  exact absurd h.proper <| by simp [hw]

-- Of the texts that are left, only those that have come up before are passed over.
theorem variants_eq (search : Text) :
    variants search = ((drops (words search)).map (joinWith [' '])).eraseDups := by
  have hn : ∀ d ∈ drops (words search), (!d.isEmpty) = true := fun d hd => by
    simpa using (isPart_of_mem_drops hd).nonempty
  have ht : ∀ t ∈ (drops (words search)).map (joinWith [' ']), (t != trim search) = true :=
    List.forall_mem_map.mpr fun d hd => by simpa using (isPart_of_mem_drops hd).ne_trim
  rw [variants, List.filter_eq_self.mpr hn, foldl_addNew, List.filter_eq_self.mpr ht]

theorem mem_variants (h : v ∈ variants search) :
    ∃ d, IsPart (words search) d ∧ v = joinWith [' '] d := by
  rw [variants_eq, List.mem_eraseDups] at h
  have ⟨d, hd, he⟩ := List.mem_map.mp h
  exact ⟨d, isPart_of_mem_drops hd, he.symm⟩

-- Variants have words in them.
theorem trim_variant : ∀ v ∈ variants search, trim v ≠ [] := by
  intro v hv
  have ⟨d, h, he⟩ := mem_variants hv
  rw [he, trim_joinWith h.isBlank]
  exact joinWith_ne_nil h.isBlank h.nonempty

-- Words are dropped in five ways.
theorem length_variants (search : Text) : (variants search).length ≤ 5 := by
  rw [variants_eq]
  calc ((drops (words search)).map (joinWith [' '])).eraseDups.length
    _ ≤ ((drops (words search)).map (joinWith [' '])).length := Lists.length_eraseDups_le _
    _ = (drops (words search)).length                        := List.length_map ..
    _ ≤ 5                                                    := length_drops_le _

-- A text is words with blanks between them in one way. In turn, its words are left without the first
-- one, the last one, the first two, the last two and both ends, as far as there are so many words
-- and one more. The variants are what is left each time, with single spaces, where of equal texts
-- the first one counts. All of them are some of the words in a row but not all words, which is never
-- nothing, and never the text without the blanks at its ends.
theorem variants_drop_words (search : Text) : ∃ ws rest,
    (∀ vs, Separated vs search ↔ vs = ws) ∧
    List.Forall₂ (Leaves ws) (allowed ws) rest ∧
    variants search = (rest.map (joinWith [' '])).eraseDups ∧
    (variants search).Nodup ∧
    (∀ v ∈ variants search, v ≠ [] ∧ v ≠ trim search ∧ ∃ d, IsPart ws d ∧ v = joinWith [' '] d) ∧
    (variants search).length ≤ 5 := by
  refine ⟨words search, drops (words search), fun _ => separated_iff, leaves_drops _,
    variants_eq search, ?_, fun v hv => ?_, length_variants search⟩
  case refine_1 => exact variants_eq search ▸ Lists.nodup_eraseDups _
  case refine_2 =>
    have ⟨d, h, he⟩ := mem_variants hv
    exact ⟨he ▸ joinWith_ne_nil h.isBlank h.nonempty, he ▸ h.ne_trim, d, h, he⟩

-- The first two words and both ends leave the same text.
example : variants " b\ta  a \n a".toList =
    ["a a a".toList, "b a a".toList, "a a".toList, "b a".toList] := by
  decide +kernel

end Cleaning

end LogOrigin
