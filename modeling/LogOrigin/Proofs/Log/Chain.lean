import LogOrigin.Log.Chain
import LogOrigin.Proofs.Log.Nesting
import LogOrigin.Proofs.Text.Blank
import LogOrigin.Proofs.Text.Trim
import Mathlib.Data.List.TakeWhile

-- The grammar of span chains. The reading of a chain accepts the texts of this grammar and no
-- others, and gives what the grammar says.

namespace LogOrigin.SpanChain

open Text

def IsName : Text → Prop
  | []     => False
  | c :: t => isIdentStart c = true ∧ ∀ d ∈ t, isNameChar d = true

-- A span as it stands in a line: its name, and what is between its braces if it has any.
structure Written where
  name : Text
  body : Option Text

namespace Written

def text (w : Written) : Text :=
  match w.body with
  | none   => w.name
  | some b => w.name ++ '{' :: (b ++ ['}'])

def span (w : Written) : Span where
  name   := w.name
  fields := (w.body.map Fields.ofText).getD []

structure Valid (w : Written) : Prop where
  name : IsName w.name
  body : ∀ b ∈ w.body, Fields.Closes b

end Written

-- Written spans with a colon behind each one.
def chainText (l : List Written) : Text :=
  l.flatMap fun w => w.text ++ [':']

-- A text that begins with a chain, taken apart.
structure Splits (t : Text) (chain : List Written) (tail : Text) : Prop where
  text     : t = chainText chain ++ tail
  nonempty : chain ≠ []
  valid    : ∀ w ∈ chain, w.Valid
  ends     : ∀ c ∈ tail.head?, isAsciiBlank c = true

variable {t r tail tail' : Text} {s : Span} {w v : Written} {chain chain' : List Written} {c : Char}

namespace Written

theorem Valid.takeSpan (h : w.Valid) (r : Text) :
    takeSpan (w.text ++ ':' :: r) = some (w.span, ':' :: r) := by
  obtain ⟨name, body⟩ := w
  obtain ⟨hn, hb⟩ := h
  cases name
  case nil       => cases hn
  case cons c t =>
    obtain ⟨hc, ht⟩ := hn
    cases body
    case none =>
      obtain ⟨h₁, h₂⟩ := span_run (r := ':' :: r) ht (by simp; decide)
      simp [text, SpanChain.takeSpan, hc, h₁, h₂, span]
    case some b =>
      obtain ⟨h₁, h₂⟩ :=
        span_run (r := '{' :: (b ++ '}' :: ':' :: r)) ht (by simp; decide)
      have := Fields.splitBody?_top_eq_some_iff.mpr ⟨Eq.refl (b ++ '}' :: ':' :: r), hb b rfl⟩
      simp [text, SpanChain.takeSpan, hc, h₁, h₂, this, span]

end Written

theorem exists_of_takeSpan (h : takeSpan t = some (s, r)) :
    ∃ w : Written, w.Valid ∧ t = w.text ++ r ∧ s = w.span := by
  cases t
  case nil      => simp [takeSpan] at h
  case cons c t =>
    have hp : t.takeWhile isNameChar ++ t.dropWhile isNameChar = t :=
      List.takeWhile_append_dropWhile
    simp only [takeSpan] at h
    split at h
    case isFalse => cases h
    case isTrue hc =>
      have hn : IsName (c :: t.takeWhile isNameChar) := ⟨hc, fun _ => List.mem_takeWhile_imp⟩
      split at h
      case h_1 u hu =>
        obtain ⟨⟨b, v⟩, hb, ⟨⟩⟩ := Option.map_eq_some_iff.mp h
        obtain ⟨hv, hb⟩ := Fields.splitBody?_top_eq_some_iff.mp hb
        rw [hu, hv] at hp
        exact ⟨⟨_, some b⟩, ⟨hn, by simpa using hb⟩, by simpa [Written.text] using hp.symm, rfl⟩
      case h_2 =>
        cases h
        exact ⟨⟨_, none⟩, ⟨hn, by simp⟩, by simp [Written.text], rfl⟩

theorem read_nothing (h : takeSpan t = none) : read t = none := by
  rw [read]
  split <;> simp_all

theorem read_end (h : takeSpan t = some (s, ':' :: r)) (hr : ∀ c ∈ r.head?, isAsciiBlank c = true) :
    read t = some ([s], trimStart r) := by
  rw [read]
  cases r
  case nil      => split <;> simp_all [trimStart]
  case cons c r => split <;> simp_all

theorem read_next (h : takeSpan t = some (s, ':' :: c :: r)) (hb : isAsciiBlank c = false)
    (hc : c ≠ ':') : read t = (read (c :: r)).map fun p => (s :: p.1, p.2) := by
  rw [read]
  split <;> simp_all

theorem read_doubled (h : takeSpan t = some (s, ':' :: ':' :: r)) : read t = none := by
  rw [read]
  split <;> simp_all [isAsciiBlank]

-- A name or a field list can be told from what follows its colon.
theorem Written.Valid.inj (hw : w.Valid) (hv : v.Valid)
    (h : w.text ++ ':' :: r = v.text ++ ':' :: t) : w = v ∧ r = t := by
  have he := hw.takeSpan r
  rw [h, hv.takeSpan t] at he
  simp only [Option.some.injEq, Prod.mk.injEq, List.cons.injEq, true_and] at he
  obtain ⟨hs, rfl⟩ := he
  have hn : v.name = w.name := congrArg Span.name hs
  have ht := List.append_cancel_right h
  obtain ⟨n, b⟩ := w
  obtain ⟨m, d⟩ := v
  obtain rfl : m = n := hn
  refine ⟨?_, rfl⟩
  cases b <;> cases d <;> simp_all [Written.text]

theorem isAsciiBlank_of_isIdentStart (h : isIdentStart c = true) : isAsciiBlank c = false := by
  cases hb : isAsciiBlank c
  case false => rfl
  case true  => simpa [isBlank_of_isAsciiBlank hb] using isBlank_of_isIdentStart h

theorem Written.Valid.head (h : w.Valid) (r : Text) :
    ∃ c t, w.text ++ r = c :: t ∧ isIdentStart c = true := by
  obtain ⟨name, body⟩ := w
  obtain ⟨hn, _⟩ := h
  cases name
  case nil      => cases hn
  case cons c t => cases body <;> exact ⟨_, _, rfl, hn.1⟩

@[simp]
theorem chainText_nil : chainText [] = [] :=
  rfl

@[simp]
theorem chainText_cons (w : Written) (l : List Written) (r : Text) :
    chainText (w :: l) ++ r = w.text ++ ':' :: (chainText l ++ r) := by
  simp [chainText]

-- What follows a span of a chain decides about the rest only by its own beginning.
theorem read_cons (hw : w.Valid) (h : isIdentStart c = true) :
    read (w.text ++ ':' :: c :: r) = (read (c :: r)).map fun p => (w.span :: p.1, p.2) := by
  refine read_next (hw.takeSpan _) (isAsciiBlank_of_isIdentStart h) ?_
  rintro rfl
  cases h

theorem read_append {l : List Written} (hl : ∀ w ∈ l, w.Valid) (h : isIdentStart c = true) :
    read (chainText l ++ c :: r) =
      (read (c :: r)).map fun p => (l.map Written.span ++ p.1, p.2) := by
  induction l
  case nil            => simp
  case cons w l hi =>
    have ⟨hw, hl'⟩ := List.forall_mem_cons.mp hl
    rw [chainText_cons]
    cases l
    case nil      => simp [read_cons hw h]
    case cons v l =>
      have ⟨d, u, hd, hs⟩ := (hl' v (List.mem_cons_self ..)).head (':' :: (chainText l ++ c :: r))
      rw [chainText_cons, hd, read_cons hw hs, ← hd, ← chainText_cons, hi hl']
      cases read (c :: r) <;> rfl

namespace Splits

theorem of_end (hw : w.Valid) (hr : ∀ c ∈ r.head?, isAsciiBlank c = true) :
    Splits (w.text ++ ':' :: r) [w] r where
  text     := by simp
  nonempty := by simp
  valid    := by simpa using hw
  ends     := hr

theorem of_next (hw : w.Valid) (h : Splits r chain tail) :
    Splits (w.text ++ ':' :: r) (w :: chain) tail where
  text     := by simp [h.text]
  nonempty := by simp
  valid    := List.forall_mem_cons.mpr ⟨hw, h.valid⟩
  ends     := h.ends

-- A chain is one span, or a span before another chain.
theorem cases_cons (h : Splits t (w :: chain) tail) :
    w.Valid ∧ ((chain = [] ∧ t = w.text ++ ':' :: tail ∧ ∀ c ∈ tail.head?, isAsciiBlank c = true) ∨
      ∃ c r, t = w.text ++ ':' :: c :: r ∧ isIdentStart c = true ∧ Splits (c :: r) chain tail) := by
  have ⟨hw, hl⟩ := List.forall_mem_cons.mp h.valid
  have ht := h.text
  rw [chainText_cons] at ht
  refine ⟨hw, ?_⟩
  cases chain
  case nil      => exact .inl ⟨rfl, ht, h.ends⟩
  case cons v l =>
    have ⟨c, r, hc, hs⟩ := (hl v (List.mem_cons_self ..)).head (':' :: (chainText l ++ tail))
    rw [chainText_cons, hc] at ht
    exact .inr ⟨c, r, ht, hs, ⟨by rw [chainText_cons, hc], by simp, hl, h.ends⟩⟩

theorem read (h : Splits t chain tail) :
    read t = some (chain.map Written.span, trimStart tail) := by
  induction chain generalizing t
  case nil             => exact absurd rfl h.nonempty
  case cons w chain hi =>
    obtain ⟨hw, ⟨rfl, rfl, he⟩ | ⟨c, r, rfl, hs, h⟩⟩ := h.cases_cons
    case inl => exact read_end (hw.takeSpan _) he
    case inr =>
      rw [read_cons hw hs, hi h]
      rfl

theorem unique (h : Splits t chain tail) (h' : Splits t chain' tail') :
    chain = chain' ∧ tail = tail' := by
  have blank {c : Char} {r : Text} (hs : isIdentStart c = true)
      (he : ∀ d ∈ (c :: r).head?, isAsciiBlank d = true) : False := by
    simpa [isAsciiBlank_of_isIdentStart hs] using he c
  induction chain generalizing t chain'
  case nil             => exact absurd rfl h.nonempty
  case cons w chain hi =>
    cases chain'
    case nil       => exact absurd rfl h'.nonempty
    case cons v chain' =>
      obtain ⟨hw, ⟨rfl, rfl, he⟩ | ⟨c, r, rfl, hs, hc⟩⟩ := h.cases_cons
      case inl =>
        obtain ⟨hv, ⟨rfl, ht, _⟩ | ⟨c, r, ht, hs, _⟩⟩ := h'.cases_cons
        case inl =>
          obtain ⟨rfl, rfl⟩ := hw.inj hv ht
          exact ⟨rfl, rfl⟩
        case inr =>
          obtain ⟨rfl, rfl⟩ := hw.inj hv ht
          exact (blank hs he).elim
      case inr =>
        obtain ⟨hv, ⟨rfl, ht, he⟩ | ⟨d, u, ht, _, hc'⟩⟩ := h'.cases_cons
        case inl =>
          obtain ⟨rfl, rfl⟩ := hw.inj hv ht
          exact (blank hs he).elim
        case inr =>
          obtain ⟨rfl, hr⟩ := hw.inj hv ht
          obtain ⟨rfl, rfl⟩ := hi hc (hr ▸ hc')
          exact ⟨rfl, rfl⟩

end Splits

theorem exists_of_read {spans : List Span} {rest : Text}
    (h : SpanChain.read t = some (spans, rest)) :
    ∃ chain tail, Splits t chain tail ∧ spans = chain.map Written.span ∧ rest = trimStart tail := by
  fun_induction SpanChain.read t generalizing spans rest
  case case1 s ht =>
    obtain ⟨w, hw, rfl, rfl⟩ := exists_of_takeSpan ht
    cases h
    exact ⟨_, _, .of_end hw (by simp), rfl, rfl⟩
  case case2 s c r ht hb =>
    obtain ⟨w, hw, rfl, rfl⟩ := exists_of_takeSpan ht
    cases h
    exact ⟨_, _, .of_end hw (by simpa using hb), rfl, rfl⟩
  case case3 => cases h
  case case4 s c r ht _ _ hi =>
    obtain ⟨w, hw, rfl, rfl⟩ := exists_of_takeSpan ht
    obtain ⟨⟨spans, rest⟩, hp, ⟨⟩⟩ := Option.map_eq_some_iff.mp h
    obtain ⟨chain, tail, hs, rfl, rfl⟩ := hi hp
    exact ⟨_, _, .of_next hw hs, rfl, rfl⟩
  case case5 => cases h

theorem read_doubled_colon {l : List Written} (hl : ∀ v ∈ l, v.Valid) (hw : w.Valid) (r : Text) :
    SpanChain.read (chainText l ++ (w.text ++ ':' :: ':' :: r)) = none := by
  have ⟨c, t, hc, hs⟩ := hw.head (':' :: ':' :: r)
  rw [hc, read_append hl hs, ← hc, read_doubled (hw.takeSpan _)]
  rfl

theorem read_unclosed {l : List Written} {name : Text} (hl : ∀ v ∈ l, v.Valid) (hn : IsName name)
    (hr : ∀ body rest, r = body ++ '}' :: rest → ¬Fields.Closes body) :
    SpanChain.read (chainText l ++ (name ++ '{' :: r)) = none := by
  cases name
  case nil      => cases hn
  case cons c t =>
    obtain ⟨hc, ht⟩ := hn
    have ⟨h₁, h₂⟩ := span_run (r := '{' :: r) ht (by simp; decide)
    have hs : Fields.splitBody? .top r = none := by
      match h : Fields.splitBody? .top r with
      | none              => rfl
      | some (body, rest) =>
        have ⟨he, hc⟩ := Fields.splitBody?_top_eq_some_iff.mp h
        exact absurd hc <| hr body rest he
    rw [List.cons_append, read_append hl hc, read_nothing (by simp [takeSpan, hc, h₁, h₂, hs])]
    rfl

-- The reading of a chain accepts exactly the texts that begin with one. There is only one way to
-- take such a text apart, and what is left over is an end of it. Two colons behind a span never
-- belong to a chain, nor does a field list whose bracket is not closed by a brace.
theorem read_grammar (t : Text) :
    (∀ spans rest, SpanChain.read t = some (spans, rest) ↔
      ∃ chain tail, Splits t chain tail ∧ spans = chain.map Written.span ∧
        rest = trimStart tail) ∧
    (∀ chain chain' tail tail', Splits t chain tail → Splits t chain' tail' →
      chain = chain' ∧ tail = tail') ∧
    (∀ spans rest, SpanChain.read t = some (spans, rest) → rest <:+ t) ∧
    (∀ l, (∀ v ∈ l, v.Valid) →
      (∀ w r, Written.Valid w → t = chainText l ++ (w.text ++ ':' :: ':' :: r) →
        SpanChain.read t = none) ∧
      (∀ name r, IsName name → t = chainText l ++ (name ++ '{' :: r) →
        (∀ body rest, r = body ++ '}' :: rest → ¬Fields.Closes body) →
        SpanChain.read t = none)) := by
  refine ⟨?grammar, ?unique, ?suffix, fun l hl => ⟨?doubled, ?unclosed⟩⟩
  case grammar =>
    intro spans rest
    refine ⟨exists_of_read, ?_⟩
    rintro ⟨chain, tail, h, rfl, rfl⟩
    exact h.read
  case unique => exact fun _ _ _ _ h h' => h.unique h'
  case suffix =>
    intro spans rest h
    obtain ⟨chain, tail, hs, _, rfl⟩ := exists_of_read h
    exact (List.dropWhile_suffix _).trans ⟨_, hs.text.symm⟩
  case doubled =>
    rintro w r hw rfl
    exact read_doubled_colon hl hw r
  case unclosed =>
    rintro name r hn rfl hr
    exact read_unclosed hl hn hr

-- A brace in a quoted string closes nothing, and brackets of another kind count.
theorem read_grammar_nested :
    SpanChain.read "a\x7bx=\"\x7d:\" y=[1, 2]\x7d:b: ::c".toList =
        some ([⟨"a".toList, [("x".toList, "\x7d:".toList), ("y".toList, "[1, 2]".toList)]⟩,
          ⟨"b".toList, []⟩], "::c".toList) ∧
      SpanChain.read "a:b::c: d".toList = none ∧
      SpanChain.read "a:b\x7bx]\x7d: d".toList = none := by
  have ha : Written.Valid ⟨"a".toList, none⟩ := ⟨⟨rfl, by decide⟩, by simp⟩
  have hb : Written.Valid ⟨"b".toList, none⟩ := ⟨⟨rfl, by decide⟩, by simp⟩
  have hx : Fields.splitBody? .top "x=\"\x7d:\" y=[1, 2]\x7d".toList =
      some ("x=\"\x7d:\" y=[1, 2]".toList, []) := rfl
  have hl : ∀ v ∈ [⟨"a".toList, none⟩], Written.Valid v := by simpa using ha
  refine ⟨?nested, ?doubled, ?unclosed⟩
  case nested =>
    have hw : Written.Valid ⟨"a".toList, some "x=\"\x7d:\" y=[1, 2]".toList⟩ :=
      ⟨ha.name, fun _ h => Option.some.inj h ▸ (Fields.splitBody?_top_eq_some_iff.mp hx).2⟩
    exact ((read_grammar _).1 _ _).mpr ⟨[⟨"a".toList, some _⟩, ⟨"b".toList, none⟩],
      " ::c".toList, ⟨rfl, by simp, by simpa using ⟨hw, hb⟩, by decide⟩, rfl, rfl⟩
  case doubled  => exact ((read_grammar _).2.2.2 _ hl).1 _ "c: d".toList hb rfl
  case unclosed =>
    refine ((read_grammar _).2.2.2 _ hl).2 _ "x]\x7d: d".toList hb.name rfl ?_
    intro body rest he hc
    have : Fields.splitBody? .top "x]\x7d: d".toList = some (body, rest) :=
      Fields.splitBody?_top_eq_some_iff.mpr ⟨he, hc⟩
    cases this

end LogOrigin.SpanChain
