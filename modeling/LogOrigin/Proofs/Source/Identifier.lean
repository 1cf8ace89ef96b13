import LogOrigin.Proofs.Source.Symbol
import LogOrigin.Proofs.Text.Trim

-- The identifier at a column of a line is the whole run of identifier characters that has the
-- column inside it or at one of its ends.

namespace LogOrigin

namespace Symbol

open Text

variable {line before name after left right t : Text} {column : Nat}

-- A line in two parts, the first one as long as a column says. There are none if the column is
-- beyond the line or inside a character.
structure Cut (line : Text) (column : Nat) (left right : Text) : Prop where
  line   : line = left ++ right
  column : byteSize left = column

-- A run of identifier characters in a line that cannot be made longer, with a column between its
-- ends or at one of them.
structure Run (line : Text) (column : Nat) (before name after : Text) : Prop where
  line     : line = before ++ name ++ after
  nonempty : name ≠ []
  ident    : ∀ c ∈ name, isIdent c = true
  isolated : Isolated before after
  start    : byteSize before ≤ column
  stop     : column ≤ byteSize (before ++ name)

theorem cut?_of_le (h : byteSize line ≤ column) : cut? column line = some (line, []) := by
  induction line generalizing column
  case nil         => cases column <;> rfl
  case cons c t hi =>
    obtain ⟨n, rfl⟩ := Nat.exists_eq_add_of_le (show c.utf8Size ≤ column by
      simp only [byteSize] at h
      omega)
    have hn : byteSize t ≤ n := by simpa [byteSize] using h
    rw [cut?_cons, hi hn, Option.map_some]

theorem cut?_eq_some (h : cut? column line = some (left, right)) :
    Cut line (min column (byteSize line)) left right := by
  induction line generalizing column left
  case nil         => cases column <;> cases h <;> exact ⟨rfl, by simp [byteSize]⟩
  case cons c t hi =>
    cases column
    case zero   => cases h; exact ⟨rfl, by simp [byteSize]⟩
    case succ n =>
      unfold cut? at h
      obtain ⟨hc, h⟩ := Option.ite_none_right_eq_some.mp h
      obtain ⟨⟨l, r⟩, hr, he⟩ := Option.map_eq_some_iff.mp h
      cases he
      obtain ⟨rfl, hl⟩ := hi hr
      refine ⟨rfl, ?_⟩
      simp only [byteSize, hl]
      omega

theorem cut?_eq_some_iff : cut? column line = some (left, right) ↔
    Cut line (min column (byteSize line)) left right := by
  refine ⟨cut?_eq_some, fun ⟨hl, hc⟩ => ?_⟩
  subst hl
  by_cases hn : column ≤ byteSize (left ++ right)
  case pos =>
    rw [← (Nat.min_eq_left hn), ← hc]
    exact cut?_append left right
  case neg =>
    rw [Nat.min_eq_right (Nat.le_of_not_le hn)] at hc
    have hr : byteSize right = 0 := by simpa using hc
    obtain rfl := byteSize_eq_zero.mp hr
    rw [List.append_nil] at hn ⊢
    exact cut?_of_le (Nat.le_of_not_le hn)

-- The parts of a line that lie between two columns.
theorem Cut.exists_between (h : Cut line column left right) (hl : line = before ++ t)
    (hs : byteSize before ≤ column) : ∃ s, left = before ++ s ∧ t = s ++ right := by
  rcases List.append_eq_append_iff.mp (h.line.symm.trans hl) with ⟨u, rfl, rfl⟩ | ⟨s, rfl, rfl⟩
  case inr => exact ⟨s, rfl, rfl⟩
  case inl =>
    rw [← h.column, byteSize_append] at hs
    obtain rfl : u = [] := byteSize_eq_zero.mp (by omega)
    exact ⟨[], by simp, by simp⟩

-- What stands in a run before a column and behind it.
theorem Run.exists_halves (h : Run line column before name after)
    (hc : Cut line column left right) :
    ∃ s t, name = s ++ t ∧ left = before ++ s ∧ right = t ++ after := by
  obtain ⟨s, rfl, hs⟩ := hc.exists_between (t := name ++ after) (by simp [h.line]) h.start
  have hn := h.stop
  rw [← hc.column] at hn
  simp only [byteSize_append, Nat.add_le_add_iff_left] at hn
  rcases List.append_eq_append_iff.mp hs with ⟨u, rfl, rfl⟩ | ⟨t, rfl, rfl⟩
  case inl =>
    rw [byteSize_append] at hn
    obtain rfl : u = [] := byteSize_eq_zero.mp (by omega)
    exact ⟨name, [], by simp, by simp, by simp⟩
  case inr => exact ⟨s, t, rfl, rfl, rfl⟩

-- A run around a column consists of the identifier characters next to the column on both sides.
theorem Run.parts (h : Run line column before name after) (hc : Cut line column left right) :
    before = (left.reverse.dropWhile isIdent).reverse ∧
      name = (left.reverse.takeWhile isIdent).reverse ++ right.takeWhile isIdent ∧
      after = right.dropWhile isIdent := by
  obtain ⟨s, t, rfl, rfl, rfl⟩ := h.exists_halves hc
  obtain ⟨hs, ht⟩ := List.forall_mem_append.mp h.ident
  obtain ⟨h₁, h₂⟩ := span_run (s := s.reverse) (r := before.reverse) (by simpa using hs)
    (by simpa using h.isolated.before)
  obtain ⟨h₃, h₄⟩ := span_run ht h.isolated.after
  rw [List.reverse_append, h₁, h₂, h₃, h₄]
  simp

theorem Run.unique {before' name' after' : Text} (h : Run line column before name after)
    (h' : Run line column before' name' after') (hc : Cut line column left right) :
    before = before' ∧ name = name' ∧ after = after' := by
  obtain ⟨hb, hn, ha⟩ := h.parts hc
  obtain ⟨hb', hn', ha'⟩ := h'.parts hc
  exact ⟨hb.trans hb'.symm, hn.trans hn'.symm, ha.trans ha'.symm⟩

theorem Run.identifierAt? (h : Run line column before name after)
    (hc : Cut line column left right) : identifierAt? line column = some name := by
  rw [hc.line, ← hc.column, identifierAt?_append, ← (h.parts hc).2.1]
  simp [h.nonempty]

-- There is a run around a column, unless neither the character before it nor the one behind it
-- belongs to an identifier.
theorem Cut.exists_run (h : Cut line column left right) (hn : ¬Isolated left right) :
    ∃ before name after, Run line column before name after := by
  obtain ⟨s, before, hl, hs, hb⟩ := exists_leading isIdent left.reverse
  obtain ⟨t, after, rfl, ht, ha⟩ := exists_leading isIdent right
  obtain rfl : left = before.reverse ++ s.reverse := by
    rw [← List.reverse_append, ← hl, List.reverse_reverse]
  refine ⟨before.reverse, s.reverse ++ t, after, ?_, ?_, ?_, ⟨by simpa using hb, ha⟩, ?_, ?_⟩
  case refine_1 => simp [h.line]
  case refine_2 =>
    intro he
    obtain ⟨hs, rfl⟩ := List.append_eq_nil_iff.mp he
    exact hn ⟨by simpa [hs] using hb, ha⟩
  case refine_3 => exact List.forall_mem_append.mpr ⟨by simpa using hs, ht⟩
  case refine_4 => simp [← h.column]
  case refine_5 => simp [← h.column]

theorem identifierAt?_isolated (hc : Cut line column left right) (h : Isolated left right) :
    identifierAt? line column = none := by
  obtain ⟨hs, ht⟩ := isolated_iff.mp h
  rw [hc.line, ← hc.column, identifierAt?_append, hs, ht]
  rfl

-- Columns beyond a line are its end.
theorem identifierAt?_min (line : Text) (column : Nat) :
    identifierAt? line column = identifierAt? line (min column (byteSize line)) := by
  have hc : cut? column line = cut? (min column (byteSize line)) line := by
    refine Option.ext fun ⟨left, right⟩ => ?_
    rw [cut?_eq_some_iff, cut?_eq_some_iff, Nat.min_assoc, Nat.min_self]
  rw [identifierAt?, hc, identifierAt?]

theorem identifierAt?_uncut (h : ¬∃ left right, Cut line (min column (byteSize line)) left right) :
    identifierAt? line column = none := by
  have hc : cut? column line = none := Option.eq_none_iff_forall_ne_some.mpr fun p hp =>
    h ⟨p.1, p.2, cut?_eq_some_iff.mp hp⟩
  rw [identifierAt?, hc]

-- Nothing is read at a column inside a character, or where neither the character before the column
-- nor the one behind it belongs to an identifier. At all other columns the run around the column is
-- read. There is one such run, and it is read at all columns between characters from its start to
-- its end. Columns beyond the line are its end.
theorem identifierAt?_run (line : Text) (column : Nat) :
    let place := min column (byteSize line)
    ((¬∃ left right, Cut line place left right) → identifierAt? line column = none) ∧
    ∀ left right, Cut line place left right →
      (Isolated left right → identifierAt? line column = none) ∧
      (¬Isolated left right → ∃ before name after, Run line place before name after ∧
        identifierAt? line column = some name ∧
        (∀ before' name' after', Run line place before' name' after' →
          before' = before ∧ name' = name ∧ after' = after) ∧
        ∀ n, byteSize before ≤ n → n ≤ byteSize (before ++ name) →
          (∃ left right, Cut line n left right) → identifierAt? line n = some name) := by
  intro place
  refine ⟨identifierAt?_uncut, fun left right hc => ⟨fun hi => ?_, fun hn => ?_⟩⟩
  all_goals rw [identifierAt?_min]
  case refine_1 => exact identifierAt?_isolated hc hi
  case refine_2 =>
    obtain ⟨before, name, after, h⟩ := hc.exists_run hn
    refine ⟨before, name, after, h, h.identifierAt? hc, fun _ _ _ h' => h'.unique h hc, ?_⟩
    rintro n hs he ⟨l, r, hc'⟩
    exact Run.identifierAt? ⟨h.line, h.nonempty, h.ident, h.isolated, hs, he⟩ hc'

-- A name with a character of two bytes, read at its start, between its characters, at its end and
-- at a column beyond the line. There is nothing to read inside the character of two bytes.
theorem identifierAt?_run_wide :
    let line := "a+né_2".toList
    (∀ n ∈ [2, 3, 5, 6, 7, 9], identifierAt? line n = some "né_2".toList) ∧
    identifierAt? line 4 = none ∧ (¬∃ left right, Cut line 4 left right) ∧
    ∃ before name after, Run line 7 before name after ∧ identifierAt? line 9 = some name := by
  intro line
  obtain ⟨_, run⟩ := identifierAt?_run line 9
  have hc : Cut line (min 9 (byteSize line)) line [] := ⟨by simp, by decide⟩
  have hn : ¬Isolated line [] := fun h => absurd (h.before '2' rfl) (by decide)
  obtain ⟨before, name, after, h, he, _⟩ := (run line [] hc).2 hn
  refine ⟨by decide, by decide, ?_, before, name, after, h, he⟩
  rintro ⟨left, right, hc⟩
  have hs := cut?_append left right
  rw [← hc.line, hc.column] at hs
  have hn : cut? 4 line = none := by decide
  cases hn.symm.trans hs

end Symbol

end LogOrigin
