import LogOrigin.Oracle.Lexical
import LogOrigin.Proofs.Log.Batch
import LogOrigin.Proofs.Text.Takes

-- The values inside a message by one pattern. What the oracle takes for the value at a place is the
-- match of the pattern there.

namespace LogOrigin

open Text

namespace Lexical

namespace Dynamic

open Pattern

def quotedBy (c : Char) : Pattern :=
  inOrder [char (· == c), run 0 (· != c), char (· == c)]

def quoted : Pattern :=
  alt (quotedBy '"') (quotedBy '\'')

-- A name and its value, both kept.
def pair : Pattern := inOrder [
  boundary, keep .name (inOrder [char isIdentStart, run 0 isKeyChar]), char (· == '='),
  keep .result (alt quoted (run 1 isPlainValue))]

def fraction (isMark : Char → Bool) : Pattern :=
  inOrder [char isMark, run 1 isDigit]

def zone : Pattern := alt
  (char (· == 'Z'))
  (inOrder [
    char Timestamp.isSign, char isDigit, char isDigit, option (char (· == ':')), char isDigit,
    char isDigit])

def timestamp : Pattern := inOrder [
  inOrder (Timestamp.shape.map .char), option (fraction Timestamp.isFractionMark), option zone]

def clockShape : List (Char → Bool) :=
  [isDigit, isDigit, Clock.isColon, isDigit, isDigit, Clock.isColon, isDigit, isDigit]

def clock : Pattern := inOrder [
  boundary, inOrder (clockShape.map .char), option (fraction (· == '.')), boundary]

def uuid : Pattern :=
  inOrder [boundary, inOrder (uuidShape.map .char), boundary]

def hexNumber : Pattern :=
  inOrder [boundary, inOrder [char (· == '0'), char (· == 'x'), run 1 isHexDigit], boundary]

def hexRun : Pattern :=
  inOrder [boundary, run minHexRun isHexDigit, boundary]

def numeral : Pattern :=
  inOrder [boundary, run 1 isDigit, option (fraction (· == '.')), boundary]

-- The earlier alternatives win at one place.
def value : Pattern :=
  oneOf [pair, timestamp, clock, quoted, uuid, hexNumber, hexRun, numeral]

variable {α : Type} {p q : Place} {k : Place → Option α} {c : Char} {s t u : Text} {v : Value}
variable {f : Char → Bool} {a b : Pattern}

theorem takeQuoted_eq (c : Char) : takeQuoted c =
    Reader.andThen (takeShape [(· == c)])
      (Reader.andThen (Reader.span (· != c)) (takeShape [(· == c)])) := by
  funext t
  cases t
  case nil      => rfl
  case cons d t =>
    have he := List.head?_dropWhile_not (· != c) t
    by_cases hd : d = c
    case neg => simp [takeQuoted, Reader.andThen, takeShape, hd]
    case pos =>
      cases hr : t.dropWhile (· != c)
      case nil      => simp [takeQuoted, Reader.andThen, Reader.span, takeShape, hd, hr]
      case cons e r =>
        have he : e = c := by simpa [hr] using he
        simp [takeQuoted, Reader.andThen, Reader.span, takeShape, hd, hr, he]

theorem exact_quoted (c : Char) : Reader.Exact (takeQuoted c) :=
  takeQuoted_eq c ▸
    (Reader.exact_shape _).andThen ((Reader.exact_span _).andThen (Reader.exact_shape _))

theorem exact_anyQuoted : Reader.Exact takeAnyQuoted :=
  (exact_quoted '"').orElse (exact_quoted '\'')

theorem reads_quotedBy (c : Char) : Reads (quotedBy c) k (takeQuoted c) := by
  rw [takeQuoted_eq]
  exact Reads.char.seq (Reader.exact_shape _) <|
    (Reads.span (by simp)).seq (Reader.exact_span _) Reads.char

theorem reads_quoted (hk : ∀ q, (k q).isSome) : Reads quoted k takeAnyQuoted :=
  (reads_quotedBy '"').alt hk (reads_quotedBy '\'')

theorem takeFraction_eq (f : Char → Bool) : Timestamp.takeFraction f =
    Reader.andThen (takeShape [f]) (takeRun isDigit) := by
  funext t
  cases t
  case nil      => rfl
  case cons c t =>
    cases hc : f c <;> simp [Timestamp.takeFraction, Reader.andThen, takeShape, hc]

theorem reads_fraction (h : Reads (run 1 isDigit) k (takeRun isDigit)) :
    Reads (fraction f) k (Timestamp.takeFraction f) := by
  rw [takeFraction_eq]
  exact Reads.char.seq (Reader.exact_shape _) h

theorem bind_or {β : Type} (x : Option β) (k l : β → Option α) :
    (x.bind fun b => (k b).or (l b)) = (x.bind k).or (x.bind l) := by
  cases x <;> rfl

theorem reads_zone (hk : ∀ q, (k q).isSome) : Reads zone k Timestamp.takeZone := by
  have h := (Reads.shape [(· == 'Z')]).alt hk <|
    (Reads.shape [Timestamp.isSign, isDigit, isDigit, (· == ':'), isDigit, isDigit]).alt hk <|
      Reads.shape [Timestamp.isSign, isDigit, isDigit, isDigit, isDigit]
  -- The colon is there or not, which makes two shapes of one.
  refine fun p => Takes.congr (Eq.trans ?_ (h p)) ?_
  · simp only [zone, option, inOrder, List.map, find, bind_or]
  · unfold Timestamp.takeZone
    dsimp only
    cases takeShape [(· == 'Z')] p.after
    case some => rfl
    case none =>
      cases takeShape [Timestamp.isSign, isDigit, isDigit, (· == ':'), isDigit, isDigit] p.after <;>
        rfl

theorem takes_timestamp : Takes timestamp some p (Timestamp.matcher p.before.head? p.after) := by
  have hk : ∀ q, (some q : Option Place).isSome := fun _ => rfl
  have hd := (Reads.shape Timestamp.shape).option (Reads.isSome_option hk) (Reader.exact_shape _) <|
    reads_fraction (f := Timestamp.isFractionMark) <|
      Reads.run <| Reads.isSome_option (a := zone) hk
  refine (hd.option hk (fun t a u h => ?_) (reads_zone hk) p).congr ?_
  · obtain ⟨x, hx, he⟩ := Option.map_eq_some_iff.mp h
    have ht := (Timestamp.takeThen_append (Timestamp.takeFraction Timestamp.isFractionMark)
      Timestamp.takeFraction_append x).1
    rw [he] at ht
    rw [takeShape_append hx, ht]
  · simp only [Timestamp.matcher, Reader.matcher, Timestamp.take, Option.map_map]
    rfl

theorem takes_apart {r : Reader} (hr : r.Advances)
    (ha : Reads a (fun q => boundary.find q some) r) :
    Takes (inOrder [boundary, a, boundary]) some p (apart r p.before.head? p.after) := by
  refine (Takes.boundary.seq fun _ _ => (ha _).seq fun _ _ => Takes.boundary).congr ?_
  unfold apart
  split
  case isFalse h => cases r p.after <;> simp [h]
  case isTrue h  =>
    cases hx : r p.after
    case none   => simp [hx]
    case some x =>
      have ⟨ht, hn⟩ := hr hx
      simp [h, hx, Place.head?_before_skip ht hn, Place.after_skip ht]

theorem advances_shape {l : List (Char → Bool)} (hl : l ≠ []) : Reader.Advances (takeShape l) := by
  intro t a u h
  refine ⟨takeShape_append h, fun ha => hl ?_⟩
  exact List.eq_nil_of_length_eq_zero (by rw [← takeShape_length h, ha, List.length_nil])

theorem takes_uuid : Takes uuid some p (apart (takeShape uuidShape) p.before.head? p.after) :=
  takes_apart (advances_shape (by decide)) (Reads.shape uuidShape)

theorem isWord_of_isHexDigit (h : isHexDigit c = true) : isWord c = true := by
  apply isWord_of_isAsciiAlnum
  simp only [isHexDigit, isAsciiAlnum, isAsciiLetter, isAsciiUpper, isAsciiLower, Bool.or_eq_true,
    Bool.and_eq_true, decide_eq_true_eq] at h ⊢
  rcases h with (h | h) | h
  · exact .inr h
  · exact .inl <| .inr ⟨h.1, Char.le_trans h.2 (by decide)⟩
  · exact .inl <| .inl ⟨h.1, Char.le_trans h.2 (by decide)⟩

theorem takeHexNumber_eq : takeHexNumber =
    Reader.andThen (takeShape [(· == '0')])
      (Reader.andThen (takeShape [(· == 'x')]) (takeRun isHexDigit)) := by
  funext t
  rcases t with _ | ⟨c, _ | ⟨d, t⟩⟩
  · rfl
  · by_cases hc : c = '0' <;> simp [takeHexNumber, Reader.andThen, takeShape, hc]
  · by_cases hc : c = '0' ∧ d = 'x'
    case pos => simp [takeHexNumber, Reader.andThen, takeShape, hc, Function.comp_def]
    case neg =>
      have hn : takeHexNumber (c :: d :: t) = none := by
        unfold takeHexNumber
        split <;> simp_all
      by_cases hd : c = '0' <;> simp_all [Reader.andThen, takeShape]

theorem advances_andThen {r s : Reader} (hr : r.Advances) (hs : s.Exact) :
    (r.andThen s).Advances := by
  intro t a u h
  have hr' : r.Exact := fun _ _ _ h => (hr h).1
  refine ⟨hr'.andThen hs t a u h, ?_⟩
  obtain ⟨x, hx, h⟩ := Option.bind_eq_some_iff.mp h
  obtain ⟨y, _, h⟩ := Option.map_eq_some_iff.mp h
  cases h
  simp [(hr hx).2]

theorem takes_hexNumber : Takes hexNumber some p (apart takeHexNumber p.before.head? p.after) := by
  rw [takeHexNumber_eq]
  refine takes_apart (advances_andThen (advances_shape (by simp))
    ((Reader.exact_shape _).andThen (Reader.exact_run _))) ?_
  exact Reads.char.seq (Reader.exact_shape _) <| Reads.char.seq (Reader.exact_shape _) <|
    Reads.run_boundary fun _ => isWord_of_isHexDigit

theorem advances_run (f : Char → Bool) : Reader.Advances (takeRun f) :=
  fun h => ⟨Reader.exact_run f _ _ _ h, (takeRun_eq_some_iff.mp h).2.1⟩

theorem length_takeHexRun (t : Text) : (takeHexRun t).map (·.1.length) =
    if minHexRun ≤ runLength isHexDigit t then some (runLength isHexDigit t) else none := by
  have h : (takeHexRun t).map (·.1.length) =
      ((takeRun isHexDigit t).map (·.1.length)).filter (minHexRun ≤ ·) := by
    unfold takeHexRun
    cases takeRun isHexDigit t
    case none   => rfl
    case some x =>
      by_cases hx : minHexRun ≤ x.1.length <;> simp [Option.filter, hx]
  have hn : minHexRun ≤ runLength isHexDigit t → 1 ≤ runLength isHexDigit t :=
    Nat.le_trans (by decide)
  rw [h, length_takeRun]
  by_cases ht : minHexRun ≤ runLength isHexDigit t
  case pos => simp [ht, hn ht]
  case neg => by_cases h₁ : 1 ≤ runLength isHexDigit t <;> simp [ht, h₁, Nat.not_le.mp ht]

theorem takes_hexRun : Takes hexRun some p (apart takeHexRun p.before.head? p.after) := by
  refine takes_apart (fun h => advances_run _ (Option.filter_eq_some_iff.mp h).1) fun p => ?_
  rw [length_takeHexRun]
  exact Takes.run_boundary (fun _ => isWord_of_isHexDigit) (by decide)

theorem le_of_close {x : Text × Text} {n : Nat} (h : Clock.close f x = some n) :
    x.1.length ≤ n := by
  unfold Clock.close at h
  grind

theorem mark_of_takeFraction {x : Text × Text} (h : Timestamp.takeFraction f t = some x) :
    ∃ c u, x.1 = c :: u ∧ f c = true := by
  cases t
  case nil      => cases h
  case cons c t =>
    simp only [Timestamp.takeFraction] at h
    split at h
    case isFalse   => cases h
    case isTrue hc =>
      obtain ⟨r, _, rfl⟩ := Option.map_eq_some_iff.mp h
      exact ⟨c, r.1, rfl, hc⟩

-- After a word a mark ends it, so that without the fraction there is an end at the mark.
theorem takes_close (hm : ∀ c, f c = true → isWord c = false)
    (hs : s.getLast? = p.before.head?) (hw : p.before.head?.any isWord = true) :
    Takes (.seq (option (fraction f)) boundary) some p
      ((Clock.close f (s, p.after)).map (· - s.length)) := by
  have hf := reads_fraction (f := f)
    (Reads.run_boundary (k := some) fun _ => isWord_of_isDigit) p
  have hb := Takes.boundary (k := some) (p := p)
  have h : (seq (option (fraction f)) boundary).find p some =
      ((fraction f).find p fun q => boundary.find q some).or (boundary.find p some) := rfl
  unfold Takes at hf hb ⊢
  rw [h, hf, hb]
  unfold Clock.close
  cases hx : Timestamp.takeFraction f p.after
  case none   =>
    rw [hs]
    split <;> simp_all
  case some x =>
    have ht := Timestamp.takeFraction_append hx
    obtain ⟨c, u, hc, hd⟩ := mark_of_takeFraction hx
    have hn : x.1 ≠ [] := by simp [hc]
    have hi : isBoundary p.before.head? p.after.head? = true := by
      simp [isBoundary, hw, ht, hc, hm c hd]
    have hj := Takes.boundary (k := some) (p := p.skip x.1.length)
    rw [Takes, Place.after_skip ht, Place.head?_before_skip ht hn] at hj
    simp only [Option.map_some, Option.bind_some, hj, hi]
    split <;> simp

-- A piece that stands apart from words, with the fraction that it may have.
theorem takes_closed {r : Reader}
    (hr : ∀ {t a u}, r t = some (a, u) → t = a ++ u ∧ ∃ c, a.getLast? = some c ∧ isWord c = true)
    (ha : Reads a (fun q => (seq (option (fraction (· == '.'))) boundary).find q some) r) :
    Takes (inOrder [boundary, a, option (fraction (· == '.')), boundary]) some p
      (if isBoundary p.before.head? p.after.head? then
        (r p.after).bind (Clock.close (· == '.'))
      else
        none) := by
  have hm (c : Char) (hc : (c == '.') = true) : isWord c = false := by
    rw [eq_of_beq hc]
    decide
  have h (p : Place) : Takes (seq a (seq (option (fraction (· == '.'))) boundary)) some p
      ((r p.after).bind (Clock.close (· == '.'))) := by
    refine ((ha p).seq
      (y := fun n => (Clock.close (· == '.') (p.after.take n, p.after.drop n)).map (· - n))
      fun n hn => ?_).congr ?_
    · obtain ⟨x, hx, rfl⟩ := Option.map_eq_some_iff.mp hn
      have ⟨ht, c, hc, hw⟩ := hr hx
      have hb := Place.head?_before_skip (p := p) ht (by rintro hn; simp [hn] at hc)
      have hs : p.after.take x.1.length = x.1 := by simp [ht]
      have hw : (p.skip x.1.length).before.head?.any isWord = true := by simp [hb, hc, hw]
      rw [hs]
      exact takes_close hm hb.symm hw
    · cases hx : r p.after
      case none   => rfl
      case some x =>
        have ht := (hr hx).1
        have hs : (p.after.take x.1.length, p.after.drop x.1.length) = x := by simp [ht]
        simp only [Option.map_some, Option.bind_some, hs]
        cases hc : Clock.close (· == '.') x
        case none   => rfl
        case some n => simp [le_of_close hc]
  refine (Takes.boundary.seq fun _ _ => h _).congr ?_
  split <;> simp

theorem last_of_shape {l : List (Char → Bool)}
    (h : takeShape (l ++ [f]) t = some (s, u)) : ∃ c, s.getLast? = some c ∧ f c = true := by
  induction l generalizing t s
  case nil         =>
    cases t
    case nil      => cases h
    case cons c t =>
      simp only [List.nil_append, takeShape] at h
      split at h
      case isFalse   => cases h
      case isTrue hf =>
        cases h
        exact ⟨c, rfl, hf⟩
  case cons g l hi =>
    rw [List.cons_append, Reader.takeShape_cons] at h
    obtain ⟨x, _, h⟩ := Option.bind_eq_some_iff.mp h
    obtain ⟨y, hy, h⟩ := Option.map_eq_some_iff.mp h
    cases h
    obtain ⟨d, hd, hf⟩ := hi hy
    exact ⟨d, by simp [hd], hf⟩

theorem takes_clock : Takes clock some p (Clock.strictMatcher p.before.head? p.after) :=
  takes_closed (fun h => ⟨takeShape_append h, (last_of_shape (l := clockShape.dropLast) h).imp
    fun _ h => h.imp_right isWord_of_isDigit⟩) (Reads.shape clockShape)

theorem takes_numeral : Takes numeral some p (number p.before.head? p.after) := by
  refine takes_closed (fun {t a u} h => ?_) fun p => ?_
  · have ⟨_, hn, hd, _⟩ := takeRun_eq_some_iff.mp h
    have ⟨c, hc⟩ := Option.ne_none_iff_exists'.mp (mt List.getLast?_eq_none_iff.mp hn)
    exact ⟨Reader.exact_run _ _ _ _ h, c, hc, isWord_of_isDigit <| hd c <| List.mem_of_getLast? hc⟩
  · rw [length_takeRun]
    have hm (c : Char) (hc : isDigit c = true) : (c == '.') = false := by
      refine beq_false_of_ne ?_
      rintro rfl
      exact absurd hc (by decide)
    exact Takes.run fun i hi h₀ _ => Option.or_eq_none_iff.mpr
      ⟨find_char_inside (k := fun q => (run 1 isDigit).find q fun q => boundary.find q some) hm hi
        rfl, find_boundary_inside (fun _ => isWord_of_isDigit) h₀ hi⟩

-- The place behind a value, where a named value is kept with its name.
def past (p : Place) (v : Value) : Place :=
  match v.label with
  | none   => p.skip v.text.length
  | some k =>
    let q := ((p.skip k.length).keeping .name p).skip 1
    (q.skip v.text.length).keeping .result q

theorem find_content (p : Place) :
    (alt quoted (run 1 isPlainValue)).find p (fun q => some (q.keeping .result p)) =
      ((takeAnyQuoted p.after).orElse fun _ => takeRun isPlainValue p.after).map fun x =>
        (p.skip x.1.length).keeping .result p := by
  have hk (q : Place) : (some (q.keeping .result p)).isSome := rfl
  refine Eq.trans ((reads_quoted hk).alt hk (Reads.run hk) p) ?_
  dsimp only
  cases (takeAnyQuoted p.after).orElse fun _ => takeRun isPlainValue p.after <;> rfl

theorem find_pair (p : Place) :
    pair.find p some = (named p.before.head? p.after).map (past p) := by
  let k (q : Place) : Option Place := (char (· == '=')).find (q.keeping .name p) fun q =>
    (alt quoted (run 1 isPlainValue)).find q fun r => some (r.keeping .result q)
  have hp : pair.find p some = if isBoundary p.before.head? p.after.head? then
      (seq (char isIdentStart) (run 0 isKeyChar)).find p k else none := rfl
  have hc (c : Char) (hc : isKeyChar c = true) : (c == '=') = false := by
    refine beq_false_of_ne ?_
    rintro rfl
    exact absurd hc (by decide)
  have hn := Takes.char.seq (a := .char isIdentStart) (k := k) (p := p) fun _ _ =>
    Takes.run (f := isKeyChar) (n := 0) fun i hi _ _ => find_char_inside hc hi rfl
  unfold Takes at hn
  rw [hp, hn]
  unfold named
  cases ht : p.after
  case nil      => split <;> rfl
  case cons c t =>
    have h₁ : (p.skip 1).after = t := by simp [Place.skip, ht]
    have h₂ : (p.skip (runLength isKeyChar t + 1)).after = t.dropWhile isKeyChar := by
      rw [Nat.add_comm, ← Place.skip_skip, ← h₁, after_skip_runLength]
    by_cases hs : isIdentStart c = true ∧ isBoundary p.before.head? (some c) = true
    case neg => cases hb : isBoundary p.before.head? (some c) <;> simp_all
    case pos =>
      simp only [hs, h₁, Nat.add_comm 1, List.head?_cons, Option.any_some, if_true, Nat.zero_le,
        Option.bind_some, Option.map_some, Bool.and_self]
      let q := (p.skip (runLength isKeyChar t + 1)).keeping .name p
      have hq : q.after = t.dropWhile isKeyChar := h₂
      cases hd : t.dropWhile isKeyChar
      case nil      => exact find_char_nil (hq.trans hd)
      case cons d u =>
        refine (find_char (hq.trans hd)).trans ?_
        by_cases he : d = '='
        case neg => simp [he]
        case pos =>
          have hu : (q.skip 1).after = u := by simp [Place.skip, hq, hd]
          rw [he, if_pos (beq_self_eq_true '='), find_content, hu]
          exact (Option.map_map (past p)
            (fun x : Text × Text => ⟨some (c :: t.takeWhile isKeyChar), x.1⟩) _).symm

-- Of a match without a name the whole text is the value.
def ofMatch (p q : Place) : Value :=
  match q.kept? .name, q.kept? .result with
  | some k, some t => ⟨some k, t⟩
  | _, _           => ⟨none, Part.toText ⟨p.after, q.after⟩⟩

theorem find_unnamed {m : Matcher} (h : Takes a some p (m p.before.head? p.after)) :
    a.find p some = (unnamed m p.before.head? p.after).map (past p) := by
  refine h.trans ?_
  unfold unnamed
  cases m p.before.head? p.after
  case none   => rfl
  case some n => simp [past, ← Place.skip_take n p]

theorem map_orElse {β : Type} (f : β → α) (x : Option β) (y : Unit → Option β) :
    (x.orElse y).map f = (x.map f).or ((y ()).map f) := by
  cases x <;> rfl

theorem orElse_eq_some_iff {x : Option α} {y : Unit → Option α} {z : α} :
    x.orElse y = some z ↔ x = some z ∨ x = none ∧ y () = some z := by
  cases x <;> simp

-- What a search for the pattern finds at a place is the value there.
theorem find_value (p : Place) :
    value.find p some = (value? p.before.head? p.after).map (past p) := by
  have hk (q : Place) : (some q : Option Place).isSome := rfl
  simp only [value?, map_orElse]
  rw [← find_pair, ← find_unnamed takes_timestamp, ← find_unnamed takes_clock,
    ← find_unnamed (m := Reader.matcher takeAnyQuoted) (reads_quoted hk p),
    ← find_unnamed takes_uuid, ← find_unnamed takes_hexNumber, ← find_unnamed takes_hexRun,
    ← find_unnamed takes_numeral]
  rfl

-- A value stands behind its name and the equals sign, if it has a name.
theorem prefix_of_named {before : Option Char} (h : named before t = some v) :
    v.lead ++ v.text <+: t := by
  cases t
  case nil      => cases h
  case cons c t =>
    simp only [named] at h
    split at h
    case isFalse => cases h
    case isTrue  =>
      have ht := List.takeWhile_append_dropWhile (p := isKeyChar) (l := t)
      split at h
      case h_2      => cases h
      case h_1 u hd =>
        obtain ⟨x, hx, rfl⟩ := Option.map_eq_some_iff.mp h
        have hu : u = x.1 ++ x.2 := exact_anyQuoted.orElse (Reader.exact_run _) _ _ _ hx
        refine ⟨x.2, ?_⟩
        calc
          (c :: t.takeWhile isKeyChar ++ ['='] ++ x.1) ++ x.2 =
              c :: (t.takeWhile isKeyChar ++ '=' :: (x.1 ++ x.2)) := by simp
          _ = c :: t                                              := by rw [← hu, ← hd, ht]

theorem prefix_of_unnamed {m : Matcher} {before : Option Char} (h : unnamed m before t = some v) :
    v.lead ++ v.text <+: t := by
  obtain ⟨n, _, rfl⟩ := Option.map_eq_some_iff.mp h
  exact List.take_prefix n t

theorem prefix_of_value {before : Option Char} (h : value? before t = some v) :
    v.lead ++ v.text <+: t := by
  simp only [value?, orElse_eq_some_iff] at h
  rcases h with h | ⟨_, h | ⟨_, h | ⟨_, h | ⟨_, h | ⟨_, h | ⟨_, h | ⟨_, h⟩⟩⟩⟩⟩⟩⟩
  case inl => exact prefix_of_named h
  all_goals exact prefix_of_unnamed h

theorem place_past (p : Place) (v : Value) :
    (past p v).index = (p.skip v.length).index ∧ (past p v).after = (p.skip v.length).after := by
  obtain ⟨label, text⟩ := v
  cases label
  case none   => simp [past, Value.length, Value.lead]
  case some k =>
    have h : p.skip (Value.length ⟨some k, text⟩) =
        ((p.skip k.length).skip 1).skip text.length := by
      simp [Value.length, Value.lead]
    rw [h]
    exact ⟨rfl, rfl⟩

theorem toText_drop (t : Text) (n : Nat) : Part.toText ⟨t, t.drop n⟩ = t.take n := by
  simp only [Part.toText, List.length_drop, List.take_eq_take_iff]
  omega

theorem ofMatch_past (hk : p.kept = []) (h : v.lead ++ v.text <+: p.after) :
    ofMatch p (past p v) = v := by
  obtain ⟨label, text⟩ := v
  obtain ⟨r, hr⟩ := h
  cases label
  case none   =>
    have ht : p.after.take text.length = text := by simp [← hr, Value.lead]
    have hn (s : Slot) : (p.skip text.length).kept? s = none := by
      simp [Place.kept?, Place.skip, hk]
    simp only [ofMatch, past, hn]
    exact congrArg (Value.mk none) <| (toText_drop ..).trans ht
  case some k =>
    let q := ((p.skip k.length).keeping .name p).skip 1
    have hp : p.after.take k.length = k := by simp [← hr, Value.lead]
    have hq : q.after.take text.length = text := by
      have : q.after = text ++ r := by simp [q, Place.skip, Place.keeping, ← hr, Value.lead]
      simp [this]
    have hn : (past p ⟨some k, text⟩).kept? .name = some k :=
      congrArg some <| (toText_drop ..).trans hp
    have ht : (past p ⟨some k, text⟩).kept? .result = some text :=
      congrArg some <| (toText_drop ..).trans hq
    simp only [ofMatch, hn, ht]

-- A match takes something.
theorem length_pos (h : value? p.before.head? p.after = some v) : 0 < v.length := by
  have hf : value.find p some = some (past p v) := by rw [find_value, h, Option.map_some]
  have he : past p v ∈ value.ends p := by
    obtain ⟨q, hq, he⟩ := List.exists_of_findSome?_eq_some <| find_eq value p some ▸ hf
    exact Option.some.inj he ▸ hq
  obtain ⟨t, ht, hp⟩ := (leads_of_mem_ends he).taken
  refine Nat.pos_of_ne_zero fun hv => ?_
  rw [(place_past p v).2, hv, Place.skip_zero] at hp
  exact absurd (ht.nullable_of_nil (List.append_left_eq_self.mp hp.symm)) (by decide)

end Dynamic

end Lexical

end LogOrigin
