import LogOrigin.Proofs.Log.Nesting
import LogOrigin.Proofs.Log.Tokens

-- Field lists as they are written: fields with a space between them, where blanks may stand inside
-- of quoted strings and brackets. Such a list is read back field by field.

namespace LogOrigin.Fields

open Text

-- What may stand between two quotes: behind a backslash any character, else no quote.
inductive Quoted : Text → Prop
  | nil : Quoted []
  | plain {c t} : c ≠ '"' → c ≠ '\\' → Quoted t → Quoted (c :: t)
  | escaped {c t} : Quoted t → Quoted ('\\' :: c :: t)

-- A text whose quotes and brackets are closed. Brackets of all kinds close each other. Outside of
-- them there is no blank, unless the text stands inside of brackets itself.
inductive Whole : (enclosed : Bool) → Text → Prop
  | nil {i} : Whole i []
  | plain {i c t} :
    c ≠ '"' → isOpening c = false → isClosing c = false → (i = false → isBlank c = false) →
    Whole i t → Whole i (c :: t)
  | quoted {i s t} : Quoted s → Whole i t → Whole i ('"' :: (s ++ '"' :: t))
  | bracketed {i o b c t} :
    isOpening o = true → Whole true b → isClosing c = true → Whole i t →
    Whole i (o :: (b ++ c :: t))

-- A field as it stands in a list: a key alone, or a key with a value.
inductive Item where
  | flag   (key : Text)
  | plain  (key value : Text)
  | quoted (key value : Text)

namespace Item

def field : Item → Text × Text
  | flag k     => (k, [])
  | plain k v  => (k, v)
  | quoted k v => (k, v)

def written : Item → Text
  | flag _     => []
  | plain _ v  => v
  | quoted _ v => '"' :: (v ++ ['"'])

def text (i : Item) : Text :=
  match i with
  | flag k => k
  | _      => i.field.1 ++ '=' :: i.written

-- The quotes around a plain value would be taken off.
structure Valid (i : Item) : Prop where
  named     : i.field.1 ≠ []
  undivided : '=' ∉ i.field.1
  key       : Whole false i.field.1
  written   : Whole false i.written
  unquoted  : ∀ k v, i ≠ plain k ('"' :: (v ++ ['"']))

end Item

-- The list, without the braces around it.
def listText (l : List Item) : Text :=
  joinWith [' '] (l.map Item.text)

-- What is read from one nesting to another without a bracket that closes the first one. If the text
-- may not be divided no blank separates on the way.
inductive Reads (divided : Bool) : Nesting → Text → Nesting → Prop
  | nil {n} : Reads divided n [] n
  | cons {n m c t} :
    n.isClosedBy c = false → (divided = false → n.separates c = false) →
    Reads divided (n.step c) t m → Reads divided n (c :: t) m

variable {enclosed divided : Bool} {d : Nat} {n m n' : Nesting} {acc k r s t v : Text} {i : Item}
  {l : List Item}

theorem Reads.append (hs : Reads divided n s m) (ht : Reads divided m t n') :
    Reads divided n (s ++ t) n' := by
  induction hs
  case nil               => exact ht
  case cons hc hb _ hi   => exact cons hc hb (hi ht)

theorem Reads.splitBody? (h : Reads divided n t m) (r : Text) :
    splitBody? n (t ++ r) = (splitBody? m r).map fun p => (t ++ p.1, p.2) := by
  induction h
  case nil             => simp
  case cons hc _ _ hi  => simp [Fields.splitBody?, hc, hi, Function.comp_def]

theorem Reads.unbroken (h : Reads false n t m) : Unbroken n t ∧ n.after t = m := by
  induction h
  case nil             => exact ⟨.nil, rfl⟩
  case cons _ hb _ hi  => exact ⟨unbroken_cons.mpr ⟨hb rfl, hi.1⟩, hi.2⟩

theorem Reads.inside {q : Quotation} {c : Char} (hq : q ≠ .outside)
    (h : Reads divided ⟨d, q.step c⟩ t m) : Reads divided ⟨d, q⟩ (c :: t) m := by
  refine .cons (by simp [Nesting.isClosedBy, hq]) (by simp [Nesting.separates, hq]) ?_
  simpa [Nesting.step, hq] using h

theorem Quoted.reads (h : Quoted t) : Reads divided ⟨d, .inside⟩ t ⟨d, .inside⟩ := by
  induction h
  case nil              => exact .nil
  case plain hq hb _ hi => exact .inside (by simp) <| by simpa [Quotation.step, hq, hb] using hi
  case escaped hi       => exact .inside (by simp) <| .inside (by simp [Quotation.step]) hi

theorem isBlank_of_bracket {c : Char} (h : isOpening c = true ∨ isClosing c = true) :
    isBlank c = false := by
  simp only [isOpening, isClosing, Bool.or_eq_true, beq_iff_eq] at h
  rcases h with ((rfl | rfl) | rfl) | ((rfl | rfl) | rfl) <;> rfl

-- A closing bracket brings the reading back to where its opening bracket stood.
theorem Whole.reads (h : Whole enclosed t) (hd : enclosed = true → divided = true ∨ 0 < d) :
    Reads divided ⟨d, .outside⟩ t ⟨d, .outside⟩ := by
  induction h generalizing d
  case nil => exact .nil
  case plain i c _ hq ho hc hb _ hi =>
    refine .cons (by simp [Nesting.isClosedBy, hc]) ?_ ?_
    · intro hn
      cases i
      case false => simp [Nesting.separates, hb]
      case true  =>
        have : d ≠ 0 := by simpa [hn, Nat.pos_iff_ne_zero] using hd rfl
        simp [Nesting.separates, this]
    · simpa [Nesting.step, hq, ho, hc] using hi hd
  case quoted hs _ hi =>
    have hb : isBlank '"' = false := rfl
    exact .cons (by simp [Nesting.isClosedBy, isClosing]) (by simp [Nesting.separates, hb])
      (hs.reads.append <| .inside (by simp) <| hi hd)
  case bracketed o b c t ho _ hc _ hb hi =>
    have hoq : o ≠ '"' := by rintro rfl; cases ho
    have hcq : c ≠ '"' := by rintro rfl; cases hc
    have hco : isOpening c = false := by
      cases h : isOpening c
      case false => rfl
      case true  => rw [isClosing_of_isOpening h] at hc; cases hc
    refine .cons ?_ ?_ ?_
    · simp [Nesting.isClosedBy, isClosing_of_isOpening ho]
    · simp [Nesting.separates, isBlank_of_bracket (.inl ho)]
    · have hs : Nesting.step ⟨d, .outside⟩ o = ⟨d + 1, .outside⟩ := by
        simp [Nesting.step, hoq, ho]
      have hr : Nesting.step ⟨d + 1, .outside⟩ c = ⟨d, .outside⟩ := by
        simp [Nesting.step, hcq, hco, hc]
      refine hs ▸ (hb fun _ => .inr d.succ_pos).append (.cons ?_ ?_ ?_)
      · simp [Nesting.isClosedBy]
      · simp [Nesting.separates]
      · exact hr ▸ hi hd

theorem Whole.enclose (h : Whole enclosed t) : Whole true t := by
  induction h
  case nil                         => exact nil
  case plain hq ho hc _ _ hi       => exact plain hq ho hc nofun hi
  case quoted hs _ hi              => exact quoted hs hi
  case bracketed ho hb hc _ _ hi   => exact bracketed ho hb hc hi

theorem Whole.append (hs : Whole enclosed s) (ht : Whole enclosed t) : Whole enclosed (s ++ t) := by
  induction hs
  case nil                         => exact ht
  case plain hq ho hc hb _ hi      => exact plain hq ho hc hb (hi ht)
  case quoted hs _ hi              => simpa using quoted hs (hi ht)
  case bracketed ho hb hc _ _ hi   => simpa using bracketed ho hb hc (hi ht)

theorem Whole.of_plain (h : ∀ c ∈ t, c ≠ '"' ∧ isOpening c = false ∧ isClosing c = false ∧
    (enclosed = false → isBlank c = false)) : Whole enclosed t := by
  induction t
  case nil         => exact nil
  case cons c t hi =>
    have ⟨⟨hq, ho, hc, hb⟩, ht⟩ := List.forall_mem_cons.mp h
    exact plain hq ho hc hb (hi ht)

theorem Quoted.of_plain (h : ∀ c ∈ t, c ≠ '"' ∧ c ≠ '\\') : Quoted t := by
  induction t
  case nil         => exact nil
  case cons c t hi =>
    have ⟨⟨hq, hb⟩, ht⟩ := List.forall_mem_cons.mp h
    exact plain hq hb (hi ht)

theorem splitOnce?_append (h : '=' ∉ k) : splitOnce? '=' (k ++ '=' :: v) = some (k, v) := by
  induction k
  case nil         => simp [splitOnce?]
  case cons c k hi =>
    have ⟨hc, hk⟩ : c ≠ '=' ∧ '=' ∉ k := by simpa [eq_comm] using h
    simp [splitOnce?, hc, hi hk]

theorem splitOnce?_eq_none (h : '=' ∉ k) : splitOnce? '=' k = none := by
  induction k
  case nil         => rfl
  case cons c k hi =>
    have ⟨hc, hk⟩ : c ≠ '=' ∧ '=' ∉ k := by simpa [eq_comm] using h
    simp [splitOnce?, hc, hi hk]

theorem unquote_quoted (v : Text) : unquote ('"' :: (v ++ ['"'])) = v := by
  simp [unquote]

theorem unquote_plain (h : ∀ u, v ≠ '"' :: (u ++ ['"'])) : unquote v = v := by
  unfold unquote
  split
  case h_1 r =>
    split
    case isTrue hr =>
      obtain ⟨u, rfl⟩ := List.getLast?_eq_some_iff.mp hr
      exact absurd rfl (h u)
    case isFalse => rfl
  case h_2 => rfl

namespace Item

theorem Valid.text_nonempty (h : i.Valid) : i.text ≠ [] := by
  cases i
  case flag => exact h.named
  all_goals simp [text]

theorem Valid.text_whole (h : i.Valid) : Whole false i.text := by
  have : Whole false ('=' :: i.written) := .plain (by decide) rfl rfl (fun _ => rfl) h.written
  cases i
  case flag => exact h.key
  all_goals exact h.key.append this

theorem Valid.isToken (h : i.Valid) : IsToken i.text ∧ Nesting.top.after i.text = .top :=
  have hr : Reads false .top i.text .top := h.text_whole.reads nofun
  ⟨⟨h.text_nonempty, hr.unbroken.1⟩, hr.unbroken.2⟩

theorem Valid.ofToken (h : i.Valid) : ofToken i.text = i.field := by
  cases i
  case flag k     =>
    have hk : '=' ∉ k := h.undivided
    simp [Fields.ofToken, text, splitOnce?_eq_none hk, field]
  case plain k v  =>
    have hk : '=' ∉ k := h.undivided
    have hv := unquote_plain fun u hu => h.unquoted k u (hu ▸ rfl)
    simp [Fields.ofToken, text, field, splitOnce?_append hk, Item.written, hv]
  case quoted k v =>
    have hk : '=' ∉ k := h.undivided
    simp [Fields.ofToken, text, field, splitOnce?_append hk, Item.written, unquote_quoted]

end Item

theorem tokens_listText (h : ∀ i ∈ l, i.Valid) : tokens (listText l) = l.map Item.text := by
  have ht : ∀ t ∈ l.map Item.text, IsToken t ∧ Nesting.top.after t = .top :=
    List.forall_mem_map.mpr fun i hi => (h i hi).isToken
  exact tokens_joinWith (fun t hm => (ht t hm).1) fun t hm =>
    (ht t ((List.dropLast_sublist _).subset hm)).2

theorem ofText_listText (h : ∀ i ∈ l, i.Valid) : ofText (listText l) = l.map Item.field := by
  rw [ofText, tokens_listText h, List.map_map]
  exact List.map_congr_left fun i hi => (h i hi).ofToken

theorem whole_listText (h : ∀ i ∈ l, i.Valid) : Whole true (listText l) := by
  induction l
  case nil         => exact .nil
  case cons i l hi =>
    have ⟨hv, hl⟩ := List.forall_mem_cons.mp h
    cases l
    case nil      => exact hv.text_whole.enclose
    case cons j l =>
      have : Whole true (' ' :: listText (j :: l)) := .plain (by decide) rfl rfl nofun (hi hl)
      simpa [listText, joinWith] using hv.text_whole.enclose.append this

theorem closes_listText (h : ∀ i ∈ l, i.Valid) : Closes (listText l) := by
  have hr : Reads true .top (listText l) .top := (whole_listText h).reads fun _ => .inl rfl
  have : splitBody? .top (listText l ++ ['}']) = some (listText l, []) := by
    rw [hr.splitBody?]
    simp [splitBody?, Nesting.isClosedBy, Nesting.top, isClosing]
  exact (splitBody?_top_eq_some_iff.mp this).2

end LogOrigin.Fields
