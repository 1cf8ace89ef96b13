import LogOrigin.Proofs.Lists
import LogOrigin.Proofs.Text.Trim
import LogOrigin.Source.Comment

-- The comment at the end of a line is taken off, whatever it says, and strings stay as they are,
-- whatever they contain.

namespace LogOrigin.Comment

open Text

-- What stands between the quotes of a string: no closing quote without a backslash in front of it.
-- The flag says whether the last character is a backslash that the next character belongs to.
inductive Body (q : Char) : Bool → Text → Prop
  | nil : Body q false []
  | last : Body q true ['\\']
  | plain {c e t} (hq : c ≠ q) (hc : c ≠ '\\') (h : Body q e t) : Body q e (c :: t)
  | escaped {c e t} (h : Body q e t) : Body q e ('\\' :: c :: t)

-- A text in which all strings are closed.
inductive Closed : Text → Prop
  | nil : Closed []
  | plain {c t} (hc : isQuote c = false) (h : Closed t) : Closed (c :: t)
  | string {q body t} (hq : isQuote q = true) (hb : Body q false body) (h : Closed t) :
    Closed (q :: (body ++ q :: t))

variable {before : Option Char} {state : Option Quoted} {q c : Char} {e : Bool}
variable {line code body comment r t : Text}

-- A text with a comment sign at the front, behind the given character.
def Starts (before : Option Char) (comment : Text) : Prop :=
  ∃ c t, comment = c :: t ∧ startsAt before c t.head? = true

-- A line with a comment behind code in which all strings are closed.
def Commented (line : Text) : Prop :=
  ∃ code comment, line = code ++ comment ∧ Closed code ∧ Starts code.getLast? comment

-- The quote that the next character stands in, if comment signs mean nothing.
def next : Option Quoted → Char → Option Quoted
  | some q, c => q.step c
  | none, c   => if isQuote c then some ⟨c, false⟩ else none

@[simp]
theorem next_escaped (q c : Char) : next (some ⟨q, true⟩) c = some ⟨q, false⟩ :=
  rfl

theorem next_close (h : q ≠ '\\') : next (some ⟨q, false⟩) q = none := by
  simp [next, Quoted.step, h]

@[simp]
theorem next_backslash (q : Char) : next (some ⟨q, false⟩) '\\' = some ⟨q, true⟩ := by
  simp [next, Quoted.step]

theorem next_inside (h : c ≠ q) (h' : c ≠ '\\') :
    next (some ⟨q, false⟩) c = some ⟨q, false⟩ := by
  simp [next, Quoted.step, h, h']

theorem ne_backslash (h : isQuote q = true) : q ≠ '\\' := by
  rintro rfl
  cases h

theorem Body.scan (h : Body q e body) :
    body.foldl next (some ⟨q, false⟩) = some ⟨q, e⟩ := by
  induction h
  case nil              => rfl
  case last             => simp
  case plain hq hc _ hi => rw [List.foldl_cons, next_inside hq hc, hi]
  case escaped hi       => simpa using hi

theorem Closed.scan (h : Closed t) : t.foldl next none = none := by
  induction h
  case nil               => rfl
  case plain hc _ hi     => simpa [next, hc] using hi
  case string hq hb _ hi =>
    rw [List.foldl_cons, List.foldl_append, next, if_pos hq, hb.scan, List.foldl_cons,
      next_close (ne_backslash hq), hi]

-- What is left, from a place in a quote or in none, of a text in which all strings are closed.
def Rest : Option Quoted → Text → Prop
  | none, t        => Closed t
  | some ⟨q, e⟩, t => ∃ body r, t = body ++ q :: r ∧ Closed r ∧
      Body q false (if e then '\\' :: body else body)

theorem rest_of_scan (h : t.foldl next state = none) : Rest state t := by
  induction t generalizing state
  case nil         =>
    obtain rfl : state = none := h
    exact .nil
  case cons c t hi =>
    have hr := hi h
    rcases state with _ | ⟨q, _ | _⟩
    case none =>
      cases hq : isQuote c
      case false =>
        rw [next, hq] at hr
        exact .plain hq hr
      case true  =>
        simp only [next, hq, if_true] at hr
        obtain ⟨body, r, rfl, ht, hb⟩ := hr
        exact .string hq hb ht
    case some.false =>
      by_cases hc : c = '\\'
      case pos =>
        subst hc
        obtain ⟨body, r, rfl, ht, hb⟩ := next_backslash q ▸ hr
        exact ⟨'\\' :: body, r, rfl, ht, hb⟩
      case neg =>
        by_cases hq : c = q
        case pos =>
          subst hq
          rw [next_close hc] at hr
          exact ⟨[], t, rfl, hr, .nil⟩
        case neg =>
          rw [next_inside hq hc] at hr
          obtain ⟨body, r, rfl, ht, hb⟩ := hr
          exact ⟨c :: body, r, rfl, ht, .plain hq hc hb⟩
    case some.true =>
      obtain ⟨body, r, rfl, ht, hb⟩ := hr
      exact ⟨c :: body, r, rfl, ht, .escaped hb⟩

theorem closed_iff : Closed t ↔ t.foldl next none = none :=
  ⟨Closed.scan, rest_of_scan⟩

instance : DecidablePred Closed :=
  fun _ => decidable_of_iff _ closed_iff.symm

theorem strip.go_cons (before : Option Char) (state : Option Quoted) (c : Char) (t : Text) :
    go before state (c :: t) =
      if state.isNone && startsAt before c t.head? then []
      else c :: go (some c) (next state c) t := by
  cases state
  case some q => rfl
  case none   =>
    rw [go]
    by_cases hs : startsAt before c t.head? = true
    case pos => simp [hs]
    case neg => cases hq : isQuote c <;> simp [hs, hq, next]

section Append

-- What is appended to a text makes no comment sign of the last character.
variable (hr : ∀ b c, startsAt b c r.head? = true → startsAt b c none = true)

include hr

theorem startsAt_of_append (h : startsAt before c (t ++ r).head? = true) :
    startsAt before c t.head? = true := by
  cases t
  case nil  => exact hr _ _ h
  case cons => exact h

theorem strip.go_append (hl : go before state line = line) :
    go before state (line ++ r) =
      line ++ go (line.getLast?.or before) (line.foldl next state) r := by
  induction line generalizing before state
  case nil         => rfl
  case cons c t hi =>
    rw [go_cons] at hl
    split at hl
    case isTrue     => cases hl
    case isFalse hs =>
      have hs : ¬(state.isNone && startsAt before c (t ++ r).head?) = true := fun h =>
        hs <| Bool.and_eq_true_iff.mpr <|
          (Bool.and_eq_true_iff.mp h).imp_right (startsAt_of_append hr)
      rw [List.cons_append, go_cons, if_neg hs, hi (List.cons.inj hl).2, Lists.getLast?_cons_or]
      rfl

end Append

-- If the last character is still a comment sign when a text follows it, that text belongs to the
-- comment.
theorem strip.go_append_of_ne (hl : go before state line ≠ line)
    (hr : ∀ b c, startsAt b c none = true → startsAt b c r.head? = true) :
    go before state (line ++ r) = go before state line := by
  induction line generalizing before state
  case nil         => exact absurd rfl hl
  case cons c t hi =>
    rw [List.cons_append, go_cons, go_cons]
    rw [go_cons] at hl
    split at hl
    case isTrue hs  =>
      obtain ⟨hn, hs⟩ := Bool.and_eq_true_iff.mp hs
      have hs' : startsAt before c (t ++ r).head? = true := by
        cases t
        case nil  => exact hr _ _ hs
        case cons => exact hs
      rw [hn, hs, hs']
      rfl
    case isFalse hs =>
      have ht : go (some c) (next state c) t ≠ t := fun h => hl (congrArg (c :: ·) h)
      have hh : (t ++ r).head? = t.head? := by
        cases t
        case nil  => exact absurd rfl ht
        case cons => rfl
      rw [hh, if_neg hs, if_neg hs, hi ht]

theorem strip.length_go_le (hc : code.foldl next state = none)
    (hs : Starts (code.getLast?.or before) comment) :
    (go before state (code ++ comment)).length ≤ code.length := by
  induction code generalizing before state
  case nil         =>
    obtain rfl : state = none := hc
    obtain ⟨c, t, rfl, hs⟩ := hs
    simp [go_cons, show startsAt before c t.head? = true from hs]
  case cons c t hi =>
    rw [Lists.getLast?_cons_or] at hs
    rw [List.cons_append, go_cons]
    split
    case isTrue  => simp
    case isFalse => simpa using hi hc hs

theorem strip.exists_comment (hl : go before state line ≠ line) :
    ∃ code comment, line = code ++ comment ∧ code.foldl next state = none ∧
      Starts (code.getLast?.or before) comment := by
  induction line generalizing before state
  case nil         => exact absurd rfl hl
  case cons c t hi =>
    rw [go_cons] at hl
    split at hl
    case isTrue hs  =>
      obtain ⟨hn, hs⟩ := Bool.and_eq_true_iff.mp hs
      exact ⟨[], c :: t, rfl, Option.isNone_iff_eq_none.mp hn, c, t, rfl, hs⟩
    case isFalse hs =>
      obtain ⟨code, comment, rfl, hc, hs⟩ := hi fun h => hl (congrArg (c :: ·) h)
      exact ⟨c :: code, comment, rfl, hc, (Lists.getLast?_cons_or ..).symm ▸ hs⟩

theorem commented_iff : Commented line ↔ strip line ≠ line := by
  constructor
  case mp  =>
    rintro ⟨code, comment, rfl, hc, hs⟩ he
    have hn := strip.length_go_le hc.scan (show Starts (code.getLast?.or none) comment by simpa)
    obtain ⟨c, t, rfl, _⟩ := hs
    rw [← strip, he, List.length_append, List.length_cons] at hn
    omega
  case mpr =>
    intro h
    obtain ⟨code, comment, hl, hc, hs⟩ := strip.exists_comment h
    exact ⟨code, comment, hl, closed_iff.mpr hc, by simpa using hs⟩

instance : DecidablePred Commented :=
  fun _ => decidable_of_iff _ commented_iff.symm

theorem strip_of_closed (h : Closed line) (hn : ¬Commented line) (hr : ∀ b c,
    startsAt b c r.head? = true → startsAt b c none = true) :
    strip (line ++ r) = line ++ strip.go line.getLast? none r := by
  have hl : strip line = line := not_not.mp <| mt commented_iff.mpr hn
  rw [strip, strip.go_append hr hl, h.scan, Option.or_none]

-- Between quotes nothing starts a comment.
theorem strip.go_body (h : Body q e body) (before : Option Char) :
    go before (some ⟨q, false⟩) (body ++ [q]) = body ++ [q] := by
  induction h generalizing before
  case nil              => rfl
  case last             => rfl
  case plain hq hc _ hi => rw [List.cons_append, go, ← next, next_inside hq hc, hi]
  case escaped hi       =>
    rw [List.cons_append, List.cons_append, go, ← next, next_backslash, go, ← next,
      next_escaped, hi]

-- A quote starts no comment, and it makes no comment sign of the character before it.
theorem startsAt_quote (hq : isQuote q = true) (before after : Option Char) :
    startsAt before q after = false ∧ startsAt before c (some q) = false := by
  simp only [isQuote, Bool.or_eq_true, beq_iff_eq] at hq
  rcases hq with rfl | rfl <;> simp [startsAt]

theorem strip.go_string (hq : isQuote q = true) (hb : Body q e body) (before : Option Char) :
    go before none (q :: (body ++ [q])) = q :: (body ++ [q]) := by
  have hs : startsAt before q (body ++ [q]).head? = false := (startsAt_quote (c := q) hq ..).1
  rw [go_cons, hs, next, if_pos hq, go_body hb]
  rfl

-- The signs of a comment with blanks around them.
def marks : List Text :=
  [" // ".toList, " # ".toList]

theorem strip.go_mark {mark : Text} (hm : mark ∈ marks) (before : Option Char) (t : Text) :
    go before none (mark ++ t) = [' '] := by
  simp only [marks, List.mem_cons, List.not_mem_nil, or_false] at hm
  rcases hm with rfl | rfl <;> simp [go, startsAt, isQuote, isAsciiBlank]

theorem startsAt_mark {mark : Text} (hm : mark ∈ marks) (before : Option Char) (c : Char)
    (t : Text) : startsAt before c (mark ++ t).head? = startsAt before c none := by
  simp only [marks, List.mem_cons, List.not_mem_nil, or_false] at hm
  rcases hm with rfl | rfl <;> simp [startsAt]

theorem trimEnd_strip_mark {mark : Text} (hm : mark ∈ marks) (h : Closed line ∨ Commented line)
    (t : Text) : trimEnd (strip (line ++ (mark ++ t))) = trimEnd (strip line) := by
  by_cases hn : Commented line
  case pos =>
    rw [strip, strip.go_append_of_ne (commented_iff.mp hn), strip]
    exact fun b c hs => startsAt_mark hm b c t ▸ hs
  case neg =>
    have hl : strip line = line := not_not.mp <| mt commented_iff.mpr hn
    rw [strip_of_closed (h.resolve_right hn) hn fun b c hs => startsAt_mark hm b c t ▸ hs,
      strip.go_mark hm, hl]
    exact dropEndWhile_append (by decide) line

-- Behind a line in which all strings are closed, or which has a comment already, a comment adds
-- blanks at most. A string behind a line without a comment stays, whatever stands between its
-- quotes, also if a backslash at the end belongs to the quote that was to close it. Nothing but the
-- end of a line is ever taken off.
theorem strip_appended :
    (∀ line, Closed line ∨ Commented line → ∀ mark ∈ marks, ∀ comment,
      trimEnd (strip (line ++ (mark ++ comment))) = trimEnd (strip line)) ∧
    (∀ line q e body, Closed line → ¬Commented line → isQuote q = true → Body q e body →
      strip (line ++ q :: (body ++ [q])) = line ++ q :: (body ++ [q])) ∧
    ∀ line, strip line <+: line := by
  refine ⟨fun line h mark hm comment => trimEnd_strip_mark hm h comment, ?_, strip_prefix⟩
  intro line q e body hl hn hq hb
  rw [strip_of_closed hl hn, strip.go_string hq hb]
  intro b c hs
  rw [List.head?_cons, (startsAt_quote hq b none).2] at hs
  cases hs

-- A line that ends in a slash and has an escaped quote in a string, and a line that has a comment
-- with an open string.
theorem strip_appended_slashes :
    let line := "say('\\', \"a\\\" // b\") /".toList
    let noted := "x // \"".toList
    let body := ['/', '/', '\\', '"']
    Closed line ∧ ¬Commented line ∧ isQuote '"' = true ∧ Body '"' false body ∧
    strip (line ++ '"' :: (body ++ ['"'])) = line ++ '"' :: (body ++ ['"']) ∧
    trimEnd (strip (line ++ (" // ".toList ++ "`".toList))) = trimEnd (strip line) ∧
    ¬Closed noted ∧ Commented noted ∧
    trimEnd (strip (noted ++ (" # ".toList ++ "y".toList))) = trimEnd (strip noted) := by
  intro line noted body
  have hl : Closed line := by decide +kernel
  have hn : ¬Commented line := by decide +kernel
  have hb : Body '"' false body := .plain (by decide) (by decide) <|
    .plain (by decide) (by decide) (.escaped .nil)
  have hc : Commented noted := by decide +kernel
  exact ⟨hl, hn, rfl, hb, strip_appended.2.1 line '"' false body hl hn rfl hb,
    strip_appended.1 line (.inl hl) _ (by simp [marks]) _, by decide +kernel, hc,
    strip_appended.1 noted (.inr hc) _ (by simp [marks]) _⟩

end LogOrigin.Comment
