import LogOrigin.Proofs.Source.Enclosing
import LogOrigin.Proofs.Text.Extension

-- Header lines with a comment at the end: which forms read from the whole line what they read from
-- its code.

namespace LogOrigin

open Text

namespace Comment

-- What is taken off a line starts with a comment sign.
theorem strip.go_rest (before : Option Char) (quoted : Option Quoted) (t : Text) :
    ∃ comment, t = strip.go before quoted t ++ comment ∧
      ∀ c ∈ comment.head?, c = '/' ∨ c = '#' := by
  induction t generalizing before quoted
  case nil         => exact ⟨[], rfl, by simp⟩
  case cons c t hi =>
    have keep (before : Option Char) (quoted : Option Quoted) :
        ∃ comment, c :: t = c :: strip.go before quoted t ++ comment ∧
          ∀ c ∈ comment.head?, c = '/' ∨ c = '#' := by
      obtain ⟨comment, ht, hc⟩ := hi before quoted
      exact ⟨comment, by rw [List.cons_append, ← ht], hc⟩
    simp only [strip.go]
    split
    case h_1 q => exact keep ..
    case h_2   =>
      split_ifs with hs hq
      · refine ⟨c :: t, rfl, ?_⟩
        simp only [startsAt, Bool.or_eq_true, Bool.and_eq_true, beq_iff_eq] at hs
        simpa using hs.imp And.left fun h => h.1.1
      · exact keep ..
      · exact keep ..

theorem exists_strip (line : Text) :
    ∃ comment, line = strip line ++ comment ∧ ∀ c ∈ comment.head?, c = '/' ∨ c = '#' :=
  strip.go_rest none none line

end Comment

namespace Declaration

open Pattern

-- The characters that forms look for behind a run of any others.
def closers : List Char :=
  [')', '"', '=', ';']

-- What stands behind the code of a line, if it is a comment that closes nothing.
structure Plain (comment : Text) : Prop where
  sign  : ∀ c ∈ comment.head?, c = '/' ∨ c = '#'
  plain : ∀ c ∈ comment, c ∉ closers

variable {u : Text} {a : Pattern} {d : Char}

theorem ignores_of_signs (hu : Plain u) (h : a.sees '/' = false ∧ a.sees '#' = false) :
    Ignores u a :=
  .of_sees fun c hc => (hu.sign c hc).elim (fun he => he ▸ h.1) (fun he => he ▸ h.2)

theorem eq_closer (hu : Plain u) (hd : d ∈ closers) : ∀ c ∈ u, (c == d) = false :=
  fun c hc => beq_false_of_ne fun he => hu.plain c hc (he ▸ hd)

theorem ignores_option (h : Ignores u a) : Ignores u (option a) :=
  h.alt fun _ => rfl

theorem ignores_closer (hu : Plain u) (hd : d ∈ closers) : Ignores u (char (· == d)) := by
  have hs : ∀ d ∈ closers, (char (· == d)).sees '/' = false ∧ (char (· == d)).sees '#' = false := by
    decide
  exact ignores_of_signs hu (hs d hd)

-- A run of any characters up to one that closes it.
theorem ignores_upTo (hu : Plain u) (hd : d ∈ closers) (n : Nat) (f : Char → Bool) :
    Ignores u (seq (run n f) (char (· == d))) :=
  .run_seq (ignores_closer hu hd) (.char (eq_closer hu hd)) n f

theorem ignores_parenthesised (hu : Plain u) : Ignores u parenthesised :=
  (ignores_of_signs hu (by decide)).seq (ignores_upTo hu (by decide) 0 (· != ')'))

theorem ignores_fnForm (hu : Plain u) : Ignores u fnForm := by
  have hp : Ignores u (inOrder [text "pub", option parenthesised, someBlanks]) :=
    (ignores_of_signs hu (by decide)).seq <| (ignores_option (ignores_parenthesised hu)).seq <|
      ignores_of_signs hu (by decide)
  have hq : Ignores u (inOrder [someBlanks, text "\"", run 0 (· != '"'), text "\""]) :=
    (ignores_of_signs hu (by decide)).seq <| (ignores_of_signs hu (by decide)).seq <|
      ignores_upTo hu (by decide) 0 (· != '"')
  have hm : Ignores u (oneOf [text "const", text "async", text "unsafe",
      seq (text "extern") (option (inOrder [someBlanks, text "\"", run 0 (· != '"'), text "\""]))]) :=
    (ignores_of_signs hu (by decide)).alt <| (ignores_of_signs hu (by decide)).alt <|
      (ignores_of_signs hu (by decide)).alt <|
        (ignores_of_signs hu (by decide)).seq (ignores_option hq)
  exact (ignores_of_signs hu (by decide)).seq <| (ignores_of_signs hu (by decide)).seq <|
    (ignores_option hp).seq <| (hm.seq (ignores_of_signs hu (by decide))).many.seq <|
      ignores_of_signs hu (by decide)

theorem ignores_defForm (hu : Plain u) : Ignores u defForm := by
  have hp : Ignores u (option (seq parenthesised blanks)) :=
    ignores_option ((ignores_parenthesised hu).seq (ignores_of_signs hu (by decide)))
  exact (ignores_of_signs hu (by decide)).seq <| (ignores_of_signs hu (by decide)).seq <|
    (ignores_of_signs hu (by decide)).seq <| (ignores_of_signs hu (by decide)).seq <|
      (ignores_of_signs hu (by decide)).seq <| hp.seq <| ignores_of_signs hu (by decide)

theorem ignores_functionForm (hu : Plain u) : Ignores u functionForm :=
  ignores_of_signs hu (by decide)

-- A type in front of an equals sign.
theorem ignores_typed (hu : Plain u) (ha : Ignores u a) :
    Ignores u (seq typeBeforeEquals (seq (text "=") a)) :=
  .option_run_seq (ignores_of_signs hu (by decide)) ((ignores_closer hu (by decide)).seq ha)
    ((StopsIn.char (eq_closer hu (by decide))).seq a) 1 (· != '=')

theorem ignores_arrowForm (hu : Plain u) : Ignores u arrowForm := by
  have hv : Ignores u (oneOf [
      seq (text "function") boundary,
      inOrder [parenthesised, blanks, typeBeforeEquals, text "=>"],
      inOrder [word, blanks, text "=>"]]) :=
    (ignores_of_signs hu (by decide)).alt <|
      ((ignores_parenthesised hu).seq <| (ignores_of_signs hu (by decide)).seq <|
        ignores_typed hu (ignores_of_signs hu (by decide))).alt <|
      ignores_of_signs hu (by decide)
  exact (ignores_of_signs hu (by decide)).seq <| (ignores_of_signs hu (by decide)).seq <|
    (ignores_of_signs hu (by decide)).seq <| (ignores_of_signs hu (by decide)).seq <|
      (ignores_of_signs hu (by decide)).seq <| (ignores_of_signs hu (by decide)).seq <|
        ignores_typed hu <| (ignores_of_signs hu (by decide)).seq <|
          (ignores_of_signs hu (by decide)).seq hv

theorem keeps_methodForm (hu : Plain u) : Keeps u methodForm := by
  have hf : Keeps u (seq (run 0 (· != ';')) finish) :=
    .run_finish fun c hc => by rw [bne, eq_closer (d := ';') hu (by decide) c hc]; rfl
  have hs {a : Pattern} (h : a.sees '/' = false ∧ a.sees '#' = false) {b : Pattern}
      (hb : Keeps u b) : Keeps u (seq a b) := (ignores_of_signs hu h).seq_keeps hb
  exact hs (by decide) <| hs (by decide) <| hs (by decide) <| hs (by decide) <| hs (by decide) <|
    hs (by decide) <| hs (by decide) <| hs (by decide) <| hs (by decide) hf

-- A form reads the parts that it keeps.
theorem nameBy?_append (h : Keeps u a) (code : Text) : nameBy? (code ++ u) a = nameBy? code a := by
  have hm := h.match? code
  unfold nameBy?
  cases hc : a.match? code
  case none =>
    rw [hc, Option.map_none, Option.map_eq_none_iff] at hm
    rw [hm]
  case some p =>
    rw [hc, Option.map_some, Option.map_eq_some_iff] at hm
    obtain ⟨q, hq, hk⟩ := hm
    simp only [hq, hk]

theorem nameBy?_eq_none {line : Text} (h : a.match? line = none) : nameBy? line a = none := by
  simp only [nameBy?, h]

-- Behind their last parenthesis forms see no comment signs.
theorem match?_closed (hu : Plain u) (hn : u ≠ []) (code : Text) (l r : List Pattern)
    (hr : ∀ b ∈ r, b.sees '/' = false ∧ b.sees '#' = false) :
    (inOrder (l ++ (text ")" :: r) ++ [finish])).match? (code ++ u) = none := by
  refine match?_eq_none code hn (eq_closer (d := ')') hu (by decide)) fun c hc b hb => ?_
  rcases hu.sign c hc with rfl | rfl
  case inl => exact (hr b hb).1
  case inr => exact (hr b hb).2

theorem match?_shorthandForm (hu : Plain u) (hn : u ≠ []) (code : Text) :
    shorthandForm.match? (code ++ u) = none := by
  let l := [start, Pattern.blanks, option (modifiers ["async"]), identifier, Pattern.blanks,
    text "(", run 0 (fun c => c != '(' && c != ')')]
  let r := [Pattern.blanks, option (inOrder [text ":", Pattern.blanks, run 1 isResultChar]),
    Pattern.blanks, text "\x7b", Pattern.blanks]
  have hf : shorthandForm = inOrder (l ++ (text ")" :: r) ++ [finish]) := rfl
  rw [hf]
  exact match?_closed hu hn code l r (by decide)

theorem match?_typedForm (hu : Plain u) (hn : u ≠ []) (code : Text) :
    typedForm.match? (code ++ u) = none := by
  let part := seq (run 1 isReturnChar) someBlanks
  let l := [start, Pattern.blanks, keep .result (seq part (many part)), option (text "*"),
    identifier, Pattern.blanks, text "(", run 0 (· != ';')]
  let r := [Pattern.blanks, option (seq (text "const") Pattern.blanks), option (text "\x7b"),
    Pattern.blanks]
  have hf : typedForm = inOrder (l ++ (text ")" :: r) ++ [finish]) := rfl
  rw [hf]
  exact match?_closed hu hn code l r (by decide)

-- The forms that do not end behind the parentheses of a header.
def unanchored : List Pattern :=
  [fnForm, defForm, functionForm, arrowForm, methodForm]

-- With a plain comment behind it, a header is read by the unanchored forms only.
theorem name?_append (hu : Plain u) (hn : u ≠ []) (code : Text) :
    name? (code ++ u) = unanchored.findSome? (nameBy? code) := by
  have hs := nameBy?_eq_none (match?_shorthandForm hu hn code)
  have ht := nameBy?_eq_none (match?_typedForm hu hn code)
  simp only [name?, forms, unanchored, List.findSome?_cons, List.findSome?_nil,
    nameBy?_append (ignores_fnForm hu).keeps, nameBy?_append (ignores_defForm hu).keeps,
    nameBy?_append (ignores_functionForm hu).keeps, nameBy?_append (ignores_arrowForm hu).keeps,
    nameBy?_append (keeps_methodForm hu), hs, ht]

end Declaration

namespace Symbol

variable {t header name : Text} {s : Symbol} {n : Nat}

theorem enclosing?_declared (hl : (lines t)[n]? = some header)
    (hd : Declaration.name? header = some name) :
    enclosing? t n = some (ofLine (lines t) n name) := by
  simp only [enclosing?, hl, hd]

-- The function around a line is the one around its own header line if and only if the header as it
-- is written, with its comment, declares the same name.
theorem Encloses.startLine_iff (h : Encloses (lines t) n s)
    (hl : (lines t)[s.startLine]? = some header) :
    enclosing? t s.startLine = some s ↔ Declaration.name? header = some s.name := by
  constructor
  case mp =>
    intro hs
    cases encloses_of_enclosing? hs
    case here hl' hd _        =>
      obtain rfl := Option.some.inj (hl.symm.trans hl')
      exact hd
    case above _ _ hlt _ _ _ => exact absurd hlt (Nat.lt_irrefl _)
  case mpr =>
    intro hd
    rw [enclosing?_declared hl hd, ← h.eq_ofLine]

-- The header of the function around a line is the header of its own function if and only if the line,
-- with the comment at its end, declares the same name. So it is if there is no comment. If there is
-- one that closes nothing, a form reads the name from the line as from its code if it goes on behind
-- the parentheses; the two forms that end there read nothing.
theorem enclosing?_startLine (h : enclosing? t n = some s) :
    ∃ header comment, (lines t)[s.startLine]? = some header ∧
      header = Comment.strip header ++ comment ∧
      (s.startLine < n → Declaration.name? (Comment.strip header) = some s.name) ∧
      (enclosing? t s.startLine = some s ↔ Declaration.name? header = some s.name) ∧
      (s.startLine = n ∨ comment = [] → enclosing? t s.startLine = some s) ∧
      (comment ≠ [] → (∀ c ∈ comment, c ∉ Declaration.closers) →
        (enclosing? t s.startLine = some s ↔
          Declaration.unanchored.findSome? (Declaration.nameBy? (Comment.strip header)) =
            some s.name)) := by
  obtain ⟨header, hl, _⟩ := enclosing?_found h
  have h' := encloses_of_enclosing? h
  obtain ⟨comment, hc, hs⟩ := Comment.exists_strip header
  have hd : s.startLine < n → Declaration.name? (Comment.strip header) = some s.name := by
    intro hlt
    obtain ⟨_, header', _, hl', hh⟩ := h'.exists_heads hlt
    obtain rfl := Option.some.inj (hl.symm.trans hl')
    exact hh.declared
  refine ⟨header, comment, hl, hc, hd, h'.startLine_iff hl, ?_, ?_⟩
  case refine_1 =>
    intro ho
    rcases Nat.lt_or_eq_of_le h'.startLine_le with hlt | he
    case inr => rwa [he]
    case inl =>
      obtain rfl := ho.resolve_left (Nat.ne_of_lt hlt)
      rw [h'.startLine_iff hl, hc, List.append_nil]
      exact hd hlt
  case refine_2 =>
    intro hn hp
    have hu : Declaration.Plain comment := ⟨hs, hp⟩
    rw [h'.startLine_iff hl]
    conv_lhs => rw [hc, Declaration.name?_append hu hn]

theorem enclosing?_startLine_commented :
    let t := "pub fn run() \x7b // go\n  a();\n\x7d".toList
    let s : Symbol := ⟨"run".toList, 0, 7, 2⟩
    enclosing? t 1 = some s ∧ enclosing? t s.startLine = some s := by
  intro t s
  have h : enclosing? t 1 = some s := by decide +kernel
  obtain ⟨header, comment, hl, hc, _, _, _, hu⟩ := enclosing?_startLine h
  have ht : (lines t)[0]? = some "pub fn run() \x7b // go".toList := by decide +kernel
  obtain rfl := Option.some.inj (ht.symm.trans hl)
  have hs : Comment.strip "pub fn run() \x7b // go".toList = "pub fn run() \x7b ".toList := by
    decide +kernel
  have hc : "pub fn run() \x7b ".toList ++ "// go".toList = "pub fn run() \x7b ".toList ++ comment :=
    hs ▸ hc
  obtain rfl := List.append_cancel_left hc
  exact ⟨h, (hu (by decide) (by decide)).mpr (by decide +kernel)⟩

-- The brace of this header is not the last thing on its line.
theorem enclosing?_startLine_none :
    ¬∀ (t : Text) (n : Nat) (s : Symbol), enclosing? t n = some s →
      enclosing? t s.startLine = some s := by
  intro h
  have ho := h "void run(int a) \x7b // go\n  b();\n\x7d".toList 1 ⟨"run".toList, 0, 5, 2⟩
    (by decide +kernel)
  have hn : enclosing? "void run(int a) \x7b // go\n  b();\n\x7d".toList 0 = none := by
    decide +kernel
  rw [hn] at ho
  cases ho

end Symbol

end LogOrigin
