import LogOrigin.Text.Blank
import LogOrigin.Text.Scan

-- Runs of characters of a class, and texts without the blanks at their ends.

namespace LogOrigin.Text

variable {p : Char → Bool} {r s t u : Text} {c d : Char}

-- A run of characters of a class ends where the next character is not of the class.
theorem span_run (hs : ∀ c ∈ s, p c = true) (hr : ∀ c ∈ r.head?, p c = false) :
    (s ++ r).takeWhile p = s ∧ (s ++ r).dropWhile p = r := by
  rw [List.takeWhile_append_of_pos hs, List.dropWhile_append_of_pos hs]
  cases r <;> simp_all

-- The run of characters of a class at the front of a text.
theorem exists_leading (p : Char → Bool) (t : Text) :
    ∃ s r, t = s ++ r ∧ (∀ c ∈ s, p c = true) ∧ ∀ c ∈ r.head?, p c = false := by
  refine ⟨t.takeWhile p, t.dropWhile p, List.takeWhile_append_dropWhile.symm,
    List.all_eq_true.mp List.all_takeWhile, fun c hc => ?_⟩
  have hn := List.head?_dropWhile_not p t
  rwa [Option.mem_def.mp hc] at hn

theorem run_inj (hs : ∀ c ∈ s, p c = true) (ht : ∀ c ∈ t, p c = true) (hc : p c = false)
    (hd : p d = false) (h : s ++ c :: r = t ++ d :: u) : s = t ∧ c :: r = d :: u := by
  have ⟨h₁, h₂⟩ := span_run hs (r := c :: r) (by simpa using hc)
  have ⟨h₃, h₄⟩ := span_run ht (r := d :: u) (by simpa using hd)
  rw [h] at h₁ h₂
  exact ⟨h₁.symm.trans h₃, h₂.symm.trans h₄⟩

theorem takeRun_eq_some_iff : takeRun p t = some (s, r) ↔
    t = s ++ r ∧ s ≠ [] ∧ (∀ c ∈ s, p c = true) ∧ ∀ c ∈ r.head?, p c = false := by
  constructor
  case mp  =>
    intro h
    rcases t with _ | ⟨c, t⟩
    case nil  => cases h
    case cons =>
      simp only [takeRun] at h
      split at h
      case isFalse   => cases h
      case isTrue hc =>
        cases h
        refine ⟨congrArg (c :: ·) List.takeWhile_append_dropWhile.symm, by simp,
          List.forall_mem_cons.mpr ⟨hc, List.all_eq_true.mp List.all_takeWhile⟩, fun d hd => ?_⟩
        have hn := List.head?_dropWhile_not p t
        rwa [hd] at hn
  case mpr =>
    rintro ⟨rfl, hs, hp, hr⟩
    obtain ⟨c, s, rfl⟩ := List.exists_cons_of_ne_nil hs
    have ⟨hc, hp⟩ := List.forall_mem_cons.mp hp
    have ⟨h₁, h₂⟩ := span_run hp hr
    simp [takeRun, hc, h₁, h₂]

-- What is dropped from the end of a text is of the class that is dropped.
theorem exists_dropEndWhile (p : Char → Bool) (t : Text) :
    ∃ s, t = dropEndWhile p t ++ s ∧ ∀ c ∈ s, p c = true := by
  refine ⟨(t.reverse.takeWhile p).reverse, ?_, fun c hc => ?_⟩
  · rw [dropEndWhile, ← List.reverse_append, List.takeWhile_append_dropWhile, List.reverse_reverse]
  · exact List.all_eq_true.mp List.all_takeWhile c (List.mem_reverse.mp hc)

theorem dropEndWhile_append (h : ∀ c ∈ s, p c = true) (t : Text) :
    dropEndWhile p (t ++ s) = dropEndWhile p t := by
  rw [dropEndWhile, List.reverse_append, List.dropWhile_append_of_pos, dropEndWhile]
  simpa using h

theorem dropEndWhile_eq (h : ∀ c ∈ t.getLast?, p c = false) : dropEndWhile p t = t := by
  have : t.reverse.dropWhile p = t.reverse := by
    rw [← List.head?_reverse] at h
    cases hr : t.reverse
    case nil      => rfl
    case cons c u => simp [h c (by simp [hr])]
  rw [dropEndWhile, this, List.reverse_reverse]

theorem head?_dropEndWhile (h : p c = false) (t : Text) :
    (dropEndWhile p (c :: t)).head? = some c := by
  rw [dropEndWhile, List.reverse_cons, List.dropWhile_append]
  split <;> simp [h]

theorem head?_trim (t : Text) : ∀ c ∈ (trim t).head?, isBlank c = false := by
  intro c hc
  have ⟨s, hs, _⟩ := exists_dropEndWhile isBlank (trimStart t)
  have := List.head?_dropWhile_not isBlank t
  rw [← trimStart, hs, ← trimEnd, ← trim] at this
  obtain ⟨u, hu⟩ := List.head?_eq_some_iff.mp hc
  simpa [hu] using this

theorem isAllBlank_append (h : ∀ c ∈ s, isBlank c = true) (t : Text) :
    isAllBlank (t ++ s) = isAllBlank t := by
  have hs : s.all isBlank = true := List.all_eq_true.mpr h
  rw [isAllBlank, List.all_append, hs, Bool.and_true, isAllBlank]

theorem trim_blanks_append (h : ∀ c ∈ s, isBlank c = true) (t : Text) : trim (s ++ t) = trim t := by
  rw [trim, trimStart, List.dropWhile_append_of_pos h, trim, trimStart]

theorem trim_append_blanks (h : ∀ c ∈ s, isBlank c = true) (t : Text) :
    trim (t ++ s) = trim t := by
  have hs : (s ++ []).dropWhile isBlank = [] := List.dropWhile_append_of_pos h
  rw [List.append_nil] at hs
  rw [trim, trimStart, List.dropWhile_append]
  split
  case isTrue ht => simp [trim, trimStart, hs, List.isEmpty_iff.mp ht]
  case isFalse   => exact dropEndWhile_append h _

-- Around what is left of a text there have been blanks only.
theorem exists_trim (t : Text) : ∃ a b, t = a ++ (trim t ++ b) ∧
    (∀ c ∈ a, isBlank c = true) ∧ ∀ c ∈ b, isBlank c = true := by
  have ⟨b, hb, hc⟩ := exists_dropEndWhile isBlank (trimStart t)
  refine ⟨t.takeWhile isBlank, b, ?_, List.all_eq_true.mp List.all_takeWhile, hc⟩
  calc
    t = t.takeWhile isBlank ++ trimStart t    := List.takeWhile_append_dropWhile.symm
    _ = t.takeWhile isBlank ++ (trim t ++ b) := by rw [hb]; rfl

@[simp]
theorem trim_trim (t : Text) : trim (trim t) = trim t := by
  have ⟨a, b, ht, ha, hb⟩ := exists_trim t
  calc
    trim (trim t) = trim (a ++ (trim t ++ b)) := by
      rw [trim_blanks_append ha, trim_append_blanks hb]
    _ = trim t                                := by rw [← ht]

theorem trim_eq_nil_iff : trim t = [] ↔ ∀ c ∈ t, isBlank c = true := by
  constructor
  case mp  =>
    have ⟨a, b, ht, ha, hb⟩ := exists_trim t
    intro hn c hc
    rw [ht, hn, List.nil_append] at hc
    exact (List.mem_append.mp hc).elim (ha c) (hb c)
  case mpr =>
    intro h
    simpa [show trim [] = [] from rfl] using trim_blanks_append h []

theorem trim_ne_nil_iff : trim t ≠ [] ↔ ∃ c ∈ t, isBlank c = false := by
  simp [Ne, trim_eq_nil_iff]

end LogOrigin.Text
