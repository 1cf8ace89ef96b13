import LogOrigin.Log.Fields

-- Where the bracket of a field list is closed, by a count over the text: the brackets that it opens
-- and closes outside of quoted strings.

namespace LogOrigin.Fields

-- What of a text stands outside of quoted strings. In a string a backslash hides what follows it.
def bare : Quotation → Text → Text
  | _, []            => []
  | .outside, c :: t => if c = '"' then bare .inside t else c :: bare .outside t
  | .inside, c :: t  =>
    if c = '"' then bare .outside t
    else if c = '\\' then bare .escaped t
    else bare .inside t
  | .escaped, _ :: t => bare .inside t

-- How many more brackets a text opens than it closes. All kinds of brackets count alike.
def depth (q : Quotation) (t : Text) : Int :=
  (bare q t).countP isOpening - (bare q t).countP isClosing

-- The brace behind the text is the first place after a brace before it where the depth is zero.
structure Closes (body : Text) : Prop where
  balanced : depth .outside ('{' :: (body ++ ['}'])) = 0
  unclosed : ∀ p, p <+: body → depth .outside ('{' :: p) ≠ 0

variable {n : Nesting} {c : Char} {t body rest : Text}

@[simp]
theorem depth_nil (q : Quotation) : depth q [] = 0 := by
  cases q <;> rfl

theorem depth_brace (t : Text) : depth .outside ('{' :: t) = 1 + depth .outside t := by
  have : bare .outside ('{' :: t) = '{' :: bare .outside t := rfl
  simp [depth, this, isOpening, isClosing]
  omega

theorem isClosing_of_isOpening (h : isOpening c = true) : isClosing c = false := by
  simp only [isOpening, Bool.or_eq_true, beq_iff_eq] at h
  rcases h with (h | h) | h <;> subst h <;> decide

-- A step that closes nothing moves a part of the depth from the text to the nesting.
theorem depth_step (t : Text) (h : n.isClosedBy c = false) :
    (n.step c).depth + depth (n.step c).quotation t = n.depth + depth n.quotation (c :: t) := by
  obtain ⟨d, q⟩ := n
  cases q
  case outside =>
    by_cases hq : c = '"'
    case pos => simp [Nesting.step, depth, bare, hq]
    case neg =>
      cases ho : isOpening c
      case true =>
        have hc := isClosing_of_isOpening ho
        simp [Nesting.step, depth, bare, hq, ho, hc]
        omega
      case false =>
        cases hc : isClosing c
        case true =>
          have hd : d ≠ 0 := by simpa [Nesting.isClosedBy, hc] using h
          simp [Nesting.step, depth, bare, hq, ho, hc]
          omega
        case false => simp [Nesting.step, depth, bare, hq, ho, hc]
  case inside =>
    by_cases hq : c = '"'
    case pos => simp [Nesting.step, Quotation.step, depth, bare, hq]
    case neg => by_cases hb : c = '\\' <;> simp [Nesting.step, Quotation.step, depth, bare, hq, hb]
  case escaped => simp [Nesting.step, Quotation.step, depth, bare]

theorem depth_closed (h : n.isClosedBy c = true) : n.depth + depth n.quotation [c] = -1 := by
  obtain ⟨d, q⟩ := n
  simp only [Nesting.isClosedBy, Bool.and_eq_true, decide_eq_true_eq, beq_iff_eq] at h
  obtain ⟨⟨rfl, rfl⟩, hc⟩ := h
  have hq : c ≠ '"' := by rintro rfl; cases hc
  have ho : isOpening c = false := by
    cases ho : isOpening c
    case true  => rw [isClosing_of_isOpening ho] at hc; cases hc
    case false => rfl
  simp [depth, bare, hq, ho, hc]

-- The depth on the way from a nesting to a closing brace, counted from the bracket that it closes.
theorem splitBody?_eq_some_iff :
    splitBody? n t = some (body, rest) ↔ t = body ++ '}' :: rest ∧
      n.depth + depth n.quotation (body ++ ['}']) = -1 ∧
      ∀ p, p <+: body → n.depth + depth n.quotation p ≠ -1 := by
  induction t generalizing n body
  case nil         => simp [splitBody?]
  case cons c t hi =>
    cases hc : n.isClosedBy c
    case true =>
      have hd := depth_closed hc
      simp only [splitBody?, hc, if_true]
      constructor
      case mp =>
        split
        case isTrue h =>
          rintro ⟨⟩
          exact ⟨by simp [h], h ▸ hd, by simp⟩
        case isFalse => simp
      case mpr =>
        rintro ⟨ht, _, ho⟩
        cases body
        case nil       => simp_all
        case cons d b =>
          obtain ⟨rfl, _⟩ := List.cons.inj ht
          exact absurd hd <| ho [c] <| by simp
    case false =>
      simp only [splitBody?, hc, Bool.false_eq_true, if_false, Option.map_eq_some_iff]
      constructor
      case mp =>
        rintro ⟨⟨b, r⟩, hb, ⟨⟩⟩
        obtain ⟨ht, hd, ho⟩ := hi.mp hb
        refine ⟨by simp [ht], by rwa [List.cons_append, ← depth_step _ hc], ?_⟩
        intro p hp
        rcases List.prefix_cons_iff.mp hp with rfl | ⟨p', rfl, hp'⟩
        case inl => simp
        case inr => exact depth_step p' hc ▸ ho p' hp'
      case mpr =>
        rintro ⟨ht, hd, ho⟩
        cases body
        case nil =>
          -- The brace would bring the depth to zero, so it would close the nesting.
          obtain ⟨rfl, _⟩ := List.cons.inj ht
          rw [List.nil_append, ← depth_step [] hc, depth_nil] at hd
          omega
        case cons d b =>
          obtain ⟨rfl, ht'⟩ := List.cons.inj ht
          refine ⟨(b, rest), hi.mpr ⟨ht', ?_, ?_⟩, rfl⟩
          · rwa [depth_step _ hc]
          · intro p hp
            rw [depth_step _ hc]
            exact ho (c :: p) (List.cons_prefix_cons.mpr ⟨rfl, hp⟩)

theorem splitBody?_top_eq_some_iff :
    splitBody? .top t = some (body, rest) ↔ t = body ++ '}' :: rest ∧ Closes body := by
  have hz (p : Text) : depth .outside ('{' :: p) = 0 ↔
      ((Nesting.top.depth : Nat) : Int) + depth Nesting.top.quotation p = -1 := by
    rw [depth_brace]
    simp only [Nesting.top]
    omega
  rw [splitBody?_eq_some_iff]
  refine and_congr_right fun _ => ?_
  constructor
  case mp  => exact fun ⟨hb, ho⟩ => ⟨(hz _).mpr hb, fun p hp => mt (hz p).mp <| ho p hp⟩
  case mpr => exact fun ⟨hb, ho⟩ => ⟨(hz _).mp hb, fun p hp => mt (hz p).mpr <| ho p hp⟩

end LogOrigin.Fields
