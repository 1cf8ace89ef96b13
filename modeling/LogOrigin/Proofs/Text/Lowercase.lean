import LogOrigin.Text.Lowercase

-- The small letters of a text that stands in another one. They can differ from those of the text
-- alone in the forms of its sigmas only.

namespace LogOrigin.Text

-- The small letters of a text between others; what is before it is given reversed.
def lowercaseIn (before after : Text) : Text → Text
  | []     => []
  | c :: t =>
    (if c = 'Σ' then [lowerSigma before (t ++ after)]
     else if c = 'İ' then ['i', '\u0307']
     else [lowerChar c]) ++ lowercaseIn (c :: before) after t

-- The capital sigmas of a text take the same forms between two texts as they do when it is alone.
def KeepsSigmas (s t r : Text) : Prop :=
  ∀ a b, t = a ++ 'Σ' :: b → lowerSigma (a.reverse ++ s.reverse) (b ++ r) = lowerSigma a.reverse b

-- A character that decides about the form of a sigma near it.
def isTelling (c : Char) : Bool :=
  !caseIgnorableRanges.has c

-- A sigma between two texts has its form because of them, whatever is around them. The characters
-- next to it that tell are one without case on the left, or one with case on the right, or one with
-- case on the left and one without case on the right.
inductive Settled (before after : Text) : Prop where
  | start {c : Char} (h : before.reverse.find? isTelling = some c) (hc : casedRanges.has c = false)
  | inner {c : Char} (h : after.find? isTelling = some c) (hc : casedRanges.has c = true)
  | final {c d : Char} (h : before.reverse.find? isTelling = some c)
    (hc : casedRanges.has c = true) (hd : after.find? isTelling = some d)
    (hd' : casedRanges.has d = false)

variable {a b b' n r r' s t : Text}

theorem meetsCased_eq (t : Text) : meetsCased t = (t.find? isTelling).any casedRanges.has := by
  unfold meetsCased
  induction t
  case nil         => rfl
  case cons c t hi => cases h : caseIgnorableRanges.has c <;> simp [isTelling, h, hi]

theorem meetsCased_append (s t : Text) :
    meetsCased (s ++ t) = ((s.find? isTelling).or (t.find? isTelling)).any casedRanges.has := by
  rw [meetsCased_eq, List.find?_append]

-- Nothing behind a sigma is looked at.
theorem meetsCased_append_sigma (s t r : Text) :
    meetsCased (s ++ 'Σ' :: t) = meetsCased (s ++ 'Σ' :: r) := by
  have h : isTelling 'Σ' = true := by decide +kernel
  rw [meetsCased_append, meetsCased_append, List.find?_cons_of_pos h, List.find?_cons_of_pos h]

theorem sigma_notMem (h : t.find? isTelling = none) : 'Σ' ∉ t :=
  fun hm => List.find?_eq_none.mp h _ hm (by decide +kernel)

theorem Settled.lowerSigma_eq (h : Settled a b) (s r : Text) :
    lowerSigma (a.reverse ++ s) (b ++ r) = lowerSigma a.reverse b := by
  have hb : meetsCased a.reverse = (a.reverse.find? isTelling).any casedRanges.has :=
    meetsCased_eq _
  have ha : meetsCased b = (b.find? isTelling).any casedRanges.has := meetsCased_eq _
  have hs := meetsCased_append a.reverse s
  have hr := meetsCased_append b r
  cases h
  case start h hc       => simp_all [lowerSigma]
  case inner h hc       => simp_all [lowerSigma]
  case final h hc hd hd' => simp_all [lowerSigma]

theorem lowercaseIn_append (before after s t : Text) : lowercaseIn before after (s ++ t) =
    lowercaseIn before (t ++ after) s ++ lowercaseIn (s.reverse ++ before) after t := by
  induction s generalizing before
  case nil         => rfl
  case cons c s hi =>
    simp only [List.cons_append, lowercaseIn, hi, List.reverse_cons, List.append_assoc,
      List.nil_append]

theorem lowercase_eq (t : Text) : lowercase t = lowercaseIn [] [] t := by
  have go (before t : Text) : lowercase.go before t = lowercaseIn before [] t := by
    induction t generalizing before
    case nil         => rfl
    case cons c t hi =>
      simp only [lowercase.go, lowercaseIn, hi, List.append_nil]
      split
      case isTrue  => rfl
      case isFalse => split <;> rfl
  exact go [] t

-- Texts around a text decide about nothing but the forms of its sigmas.
theorem lowercaseIn_congr (h : ∀ s u, t = s ++ 'Σ' :: u →
    lowerSigma (s.reverse ++ b) (u ++ r) = lowerSigma (s.reverse ++ b') (u ++ r')) :
    lowercaseIn b r t = lowercaseIn b' r' t := by
  induction t generalizing b b'
  case nil         => rfl
  case cons c t hi =>
    have ht : lowercaseIn (c :: b) r t = lowercaseIn (c :: b') r' t :=
      hi fun s u ht => by simpa using h (c :: s) u (congrArg (c :: ·) ht)
    unfold lowercaseIn
    split
    case isFalse   => rw [ht]
    case isTrue hc =>
      have hs : lowerSigma b (t ++ r) = lowerSigma b' (t ++ r') := h [] t (congrArg (· :: t) hc)
      rw [ht, hs]

theorem lowercaseIn_eq_of_notMem (h : 'Σ' ∉ t) : lowercaseIn b r t = lowercaseIn b' r' t :=
  lowercaseIn_congr fun s u ht => absurd (ht ▸ by simp) h

-- Where the sigmas keep their forms, a text that stands in another one stands there in small letters
-- as well.
theorem KeepsSigmas.contains (h : KeepsSigmas s t r) :
    contains (lowercase (s ++ t ++ r)) (lowercase t) = true := by
  have ht : lowercaseIn s.reverse r t = lowercaseIn [] [] t :=
    lowercaseIn_congr fun a b hab => by simpa using h a b hab
  refine contains_iff.mpr ⟨lowercaseIn [] (t ++ r) s, lowercaseIn (t.reverse ++ s.reverse) [] r, ?_⟩
  simp only [lowercase_eq, lowercaseIn_append, List.append_assoc, List.append_nil, ht]

theorem keepsSigmas_of_settled (h : ∀ a b, t = a ++ 'Σ' :: b → Settled a b) (s r : Text) :
    KeepsSigmas s t r :=
  fun a b hab => (h a b hab).lowerSigma_eq s.reverse r

theorem lowercaseIn_sigma (before after a b : Text) : lowercaseIn before after (a ++ 'Σ' :: b) =
    lowercaseIn before ('Σ' :: (b ++ after)) a ++ lowerSigma (a.reverse ++ before) (b ++ after) ::
      lowercaseIn ('Σ' :: (a.reverse ++ before)) after b := by
  rw [lowercaseIn_append]
  rfl

theorem count_le_of_contains (h : contains t s = true) (c : Char) : s.count c ≤ t.count c := by
  obtain ⟨u, v, rfl⟩ := contains_iff.mp h
  simp only [List.count_append]
  omega

-- A sigma that changes its form between two texts takes its old form away from the small letters if
-- it is the only one that changes. The two texts do not bring that form with them.
theorem not_contains_of_changed
    (hf : lowerSigma (a.reverse ++ s.reverse) (b ++ r) ≠ lowerSigma a.reverse b)
    (ha : 'Σ' ∉ a ∨ s = []) (hb : 'Σ' ∉ b ∨ r = [])
    (hs : ∀ after, lowerSigma a.reverse b ∉ lowercaseIn [] after s)
    (hr : ∀ before, lowerSigma a.reverse b ∉ lowercaseIn before [] r) :
    contains (lowercase (s ++ (a ++ 'Σ' :: b) ++ r)) (lowercase (a ++ 'Σ' :: b)) = false := by
  have ha : lowercaseIn s.reverse ('Σ' :: (b ++ r)) a = lowercaseIn [] ('Σ' :: b) a := by
    rcases ha with ha | rfl
    case inl => exact lowercaseIn_eq_of_notMem ha
    case inr =>
      refine lowercaseIn_congr fun u v _ => ?_
      simp only [lowerSigma, meetsCased_append_sigma v (b ++ r) b, List.reverse_nil]
  have hb : lowercaseIn ('Σ' :: (a.reverse ++ s.reverse)) r b =
      lowercaseIn ('Σ' :: a.reverse) [] b := by
    rcases hb with hb | rfl
    case inl => exact lowercaseIn_eq_of_notMem hb
    case inr =>
      refine lowercaseIn_congr fun u v _ => ?_
      simp only [lowerSigma, meetsCased_append_sigma u.reverse (a.reverse ++ s.reverse) a.reverse]
  have alone : lowercase (a ++ 'Σ' :: b) = lowercaseIn [] ('Σ' :: b) a ++
      lowerSigma a.reverse b :: lowercaseIn ('Σ' :: a.reverse) [] b := by
    simp only [lowercase_eq, lowercaseIn_sigma, List.append_nil]
  have whole : lowercase (s ++ (a ++ 'Σ' :: b) ++ r) =
      lowercaseIn [] (a ++ 'Σ' :: b ++ r) s ++ (lowercaseIn [] ('Σ' :: b) a ++
        lowerSigma (a.reverse ++ s.reverse) (b ++ r) :: lowercaseIn ('Σ' :: a.reverse) [] b) ++
          lowercaseIn ((a ++ 'Σ' :: b).reverse ++ s.reverse) [] r := by
    rw [lowercase_eq, List.append_assoc, lowercaseIn_append, lowercaseIn_append, lowercaseIn_sigma,
      List.append_nil, List.append_nil, List.append_nil, ha, hb]
    exact (List.append_assoc ..).symm
  refine Bool.eq_false_iff.mpr fun hc => ?_
  have hc := count_le_of_contains hc (lowerSigma a.reverse b)
  rw [alone, whole] at hc
  simp only [List.count_append, List.count_cons_self, List.count_cons_of_ne hf,
    List.count_eq_zero.mpr (hs _), List.count_eq_zero.mpr (hr _)] at hc
  omega

theorem lowerSigma_notMem_letter (before after before' after' : Text) :
    lowerSigma before after ∉ lowercaseIn before' after' ['a'] := by
  have h : lowercaseIn before' after' ['a'] = ['a'] := by
    have hc : lowerChar 'a' = 'a' := by decide +kernel
    simp [lowercaseIn, hc]
  rw [h]
  unfold lowerSigma
  split <;> decide

-- Behind a letter a sigma that nothing before it tells about becomes final.
theorem not_contains_after_letter (ha : a.reverse.find? isTelling = none)
    (hb : meetsCased b = false) :
    contains (lowercase (['a'] ++ (a ++ 'Σ' :: b) ++ [])) (lowercase (a ++ 'Σ' :: b)) = false := by
  refine not_contains_of_changed ?_ (.inl ?_) (.inr rfl)
    (fun _ => lowerSigma_notMem_letter _ _ _ _) fun _ => List.not_mem_nil
  · have h : meetsCased (a.reverse ++ ['a']) = true := by
      rw [meetsCased_append, ha]
      decide +kernel
    simp [lowerSigma, meetsCased_eq a.reverse, ha, h, hb]
  · simpa using sigma_notMem ha

-- Before a letter a final sigma that nothing behind it tells about is final no more.
theorem not_contains_before_letter (ha : meetsCased a.reverse = true)
    (hb : b.find? isTelling = none) :
    contains (lowercase ([] ++ (a ++ 'Σ' :: b) ++ ['a'])) (lowercase (a ++ 'Σ' :: b)) = false := by
  refine not_contains_of_changed ?_ (.inr rfl) (.inl (sigma_notMem hb))
    (fun _ => List.not_mem_nil) fun _ => lowerSigma_notMem_letter _ _ _ _
  have h : meetsCased (b ++ ['a']) = true := by
    rw [meetsCased_append, hb]
    decide +kernel
  simp [lowerSigma, meetsCased_eq b, ha, hb, h]

-- So a letter before or behind a text can change a sigma that is not settled.
theorem exists_not_contains (h : ¬Settled a b) : ∃ s r, s ⊆ ['a'] ∧ r ⊆ ['a'] ∧
    contains (lowercase (s ++ (a ++ 'Σ' :: b) ++ r)) (lowercase (a ++ 'Σ' :: b)) = false := by
  have hb : meetsCased b = false := by
    rw [meetsCased_eq]
    refine Bool.eq_false_iff.mpr fun hb => ?_
    cases hd : b.find? isTelling
    case none   => simp [hd] at hb
    case some d => exact h (.inner hd (by simpa [hd] using hb))
  cases ha : a.reverse.find? isTelling
  case none   => exact ⟨['a'], [], by simp, by simp, not_contains_after_letter ha hb⟩
  case some c =>
    have hc : casedRanges.has c = true := Bool.of_not_eq_false fun hc => h (.start ha hc)
    have hd : b.find? isTelling = none := by
      refine Option.eq_none_iff_forall_ne_some.mpr fun d hd => h (.final ha hc hd ?_)
      simpa [meetsCased_eq, hd] using hb
    have ha : meetsCased a.reverse = true := by simp [meetsCased_eq, ha, hc]
    exact ⟨[], ['a'], by simp, by simp, not_contains_before_letter ha hd⟩

end LogOrigin.Text
