import LogOrigin.Log.Fields

-- How a field list is divided, whatever its brackets and quotes are: tokens with blanks between
-- them. The tokens can be told from each other without what stands around them.

namespace LogOrigin.Fields

open Text

-- Where a scan that starts from a nesting stands behind a text.
def Nesting.after (n : Nesting) (t : Text) : Nesting :=
  t.foldl Nesting.step n

-- No blank of the text separates when it is scanned from a nesting.
def Unbroken (n : Nesting) (t : Text) : Prop :=
  ∀ a c b, t = a ++ c :: b → (n.after a).separates c = false

structure IsToken (t : Text) : Prop where
  nonempty : t ≠ []
  unbroken : Unbroken .top t

-- A text of tokens, each with the blanks behind it, after the blanks at its front. Blanks come only
-- after a token whose brackets and quotes are closed.
structure Spaced (body front : Text) (l : List (Text × Text)) : Prop where
  text   : body = front ++ l.flatMap fun x => x.1 ++ x.2
  blank  : ∀ w ∈ front :: l.map Prod.snd, ∀ c ∈ w, isBlank c = true
  apart  : ∀ x ∈ l.dropLast, x.2 ≠ []
  token  : ∀ x ∈ l, IsToken x.1
  closed : ∀ x ∈ l, x.2 ≠ [] → Nesting.top.after x.1 = .top

variable {n : Nesting} {c : Char} {acc body front r s t w : Text} {l : List (Text × Text)}

theorem Nesting.separates_iff : n.separates c = true ↔ n = .top ∧ isBlank c = true := by
  obtain ⟨d, q⟩ := n
  simp [separates, top, and_assoc, and_comm]

theorem Unbroken.nil : Unbroken n [] := by
  intro a c b h
  simp at h

theorem unbroken_cons : Unbroken n (c :: t) ↔ n.separates c = false ∧ Unbroken (n.step c) t := by
  constructor
  case mp  => exact fun h => ⟨h [] c t rfl, fun a d b ht => h (c :: a) d b (ht ▸ rfl)⟩
  case mpr =>
    rintro ⟨hc, ht⟩ a d b h
    cases a
    case nil      =>
      obtain ⟨rfl, _⟩ := List.cons.inj h
      exact hc
    case cons e a =>
      obtain ⟨rfl, h'⟩ := List.cons.inj h
      exact ht a d b h'

-- A text can be scanned up to the first blank that separates.
theorem exists_unbroken (n : Nesting) (t : Text) : ∃ s r, t = s ++ r ∧ Unbroken n s ∧
    ∀ c ∈ r.head?, n.after s = .top ∧ isBlank c = true := by
  induction t generalizing n
  case nil         => exact ⟨[], [], rfl, .nil, nofun⟩
  case cons c t hi =>
    cases hc : n.separates c
    case true  =>
      refine ⟨[], c :: t, rfl, .nil, ?_⟩
      rintro _ ⟨⟩
      exact Nesting.separates_iff.mp hc
    case false =>
      obtain ⟨s, r, rfl, hs, hr⟩ := hi (n.step c)
      exact ⟨c :: s, r, rfl, unbroken_cons.mpr ⟨hc, hs⟩, hr⟩

theorem Unbroken.tokens (h : Unbroken n s) (acc r : Text) :
    tokens.go n acc (s ++ r) = tokens.go (n.after s) (s.reverse ++ acc) r := by
  induction s generalizing n acc
  case nil         => rfl
  case cons c s hi =>
    have ⟨hc, hs⟩ := unbroken_cons.mp h
    simp [tokens.go, hc, hi hs, Nesting.after]

theorem tokens_blanks (h : ∀ c ∈ w, isBlank c = true) (r : Text) : tokens (w ++ r) = tokens r := by
  induction w
  case nil         => rfl
  case cons c w hi =>
    have ⟨hc, hw⟩ := List.forall_mem_cons.mp h
    have hs : Nesting.top.separates c = true := Nesting.separates_iff.mpr ⟨rfl, hc⟩
    simpa [tokens, tokens.go, hs] using hi hw

namespace IsToken

theorem head (h : IsToken t) : ∃ c u, t = c :: u ∧ isBlank c = false := by
  obtain ⟨c, u, rfl⟩ := List.exists_cons_of_ne_nil h.nonempty
  have hc := (unbroken_cons.mp h.unbroken).1
  exact ⟨c, u, rfl, by simpa [Nesting.separates, Nesting.top] using hc⟩

theorem tokens_eq (h : IsToken t) : tokens t = [t] := by
  have := h.unbroken.tokens [] []
  have hn : t.reverse.isEmpty = false := by simpa using h.nonempty
  simp_all [tokens, tokens.go]

theorem tokens_cons (h : IsToken t) (hc : Nesting.top.after t = .top) (hb : isBlank c = true)
    (r : Text) : tokens (t ++ c :: r) = t :: tokens r := by
  have := h.unbroken.tokens [] (c :: r)
  have hn : t.reverse.isEmpty = false := by simpa using h.nonempty
  have hs : Nesting.top.separates c = true := Nesting.separates_iff.mpr ⟨rfl, hb⟩
  simp_all [tokens, tokens.go]

end IsToken

theorem tokens_joinWith {ts : List Text} (ht : ∀ t ∈ ts, IsToken t)
    (hc : ∀ t ∈ ts.dropLast, Nesting.top.after t = .top) : tokens (joinWith [' '] ts) = ts := by
  induction ts
  case nil          => rfl
  case cons t ts hi =>
    have ⟨ht', hts⟩ := List.forall_mem_cons.mp ht
    cases ts
    case nil       => exact ht'.tokens_eq
    case cons u ts =>
      have ⟨hc', hcs⟩ := List.forall_mem_cons.mp hc
      have hb : isBlank ' ' = true := rfl
      simp [joinWith, ht'.tokens_cons hc' hb, hi hts hcs]

namespace Spaced

-- The blanks behind a token of the text are the front of its rest.
theorem tail {x : Text × Text} (h : Spaced body front (x :: l)) :
    Spaced (x.2 ++ l.flatMap fun x => x.1 ++ x.2) x.2 l where
  text   := rfl
  blank  := fun w hw => h.blank w (List.mem_cons_of_mem _ hw)
  apart  := by
    cases l
    case nil      => nofun
    case cons y l => exact fun z hz => h.apart z (List.mem_cons_of_mem _ hz)
  token  := fun z hz => h.token z (List.mem_cons_of_mem _ hz)
  closed := fun z hz => h.closed z (List.mem_cons_of_mem _ hz)

theorem tokens (h : Spaced body front l) : tokens body = l.map Prod.fst := by
  induction l generalizing body front
  case nil         =>
    have hf := h.blank front (List.mem_cons_self ..)
    have : Fields.tokens (front ++ []) = [] := tokens_blanks hf []
    simpa [h.text] using this
  case cons x l hi =>
    obtain ⟨t, w⟩ := x
    have hf := h.blank front (List.mem_cons_self ..)
    have ht : IsToken t := h.token _ (List.mem_cons_self ..)
    have hl := hi h.tail
    rw [h.text, tokens_blanks hf, List.flatMap_cons, List.append_assoc, List.map_cons]
    cases w
    case nil      =>
      cases l
      case nil      => simpa using ht.tokens_eq
      case cons y l => exact absurd rfl (h.apart _ (List.mem_cons_self ..))
    case cons c w =>
      have hc := h.closed _ (List.mem_cons_self ..) nofun
      have hw := h.blank (c :: w) (by simp)
      rw [tokens_blanks hw] at hl
      have ⟨hb, hw⟩ := List.forall_mem_cons.mp hw
      rw [List.cons_append, ht.tokens_cons hc hb, tokens_blanks hw, hl]

end Spaced

theorem Spaced.nil (h : ∀ c ∈ front, isBlank c = true) : Spaced front front [] where
  text   := by simp
  blank  := List.forall_mem_singleton.mpr h
  apart  := nofun
  token  := nofun
  closed := nofun

-- A token comes before another text with tokens if it breaks off before the blanks of that text.
theorem Spaced.cons (h : Spaced r w l) (hf : ∀ c ∈ front, isBlank c = true) (ht : IsToken t)
    (hr : ∀ c ∈ r.head?, Nesting.top.after t = .top ∧ isBlank c = true) :
    Spaced (front ++ (t ++ r)) front ((t, w) :: l) where
  text   := by rw [h.text]; simp
  blank  := List.forall_mem_cons.mpr ⟨hf, h.blank⟩
  apart  := by
    cases l
    case nil      => nofun
    case cons y l =>
      refine List.forall_mem_cons.mpr ⟨?_, h.apart⟩
      rintro rfl
      obtain ⟨c, u, hy, hc⟩ := (h.token y (List.mem_cons_self ..)).head
      have := (hr c (by simp [h.text, hy])).2
      simp [hc] at this
  token  := List.forall_mem_cons.mpr ⟨ht, h.token⟩
  closed := by
    refine List.forall_mem_cons.mpr ⟨fun hw => ?_, h.closed⟩
    obtain ⟨c, w, rfl⟩ := List.exists_cons_of_ne_nil hw
    exact (hr c (by simp [h.text])).1

theorem exists_spaced (body : Text) : ∃ front l, Spaced body front l := by
  induction h : body.length using Nat.strongRecOn generalizing body
  case ind m hi =>
    have hb : ∀ c ∈ body.takeWhile isBlank, isBlank c = true :=
      List.all_eq_true.mp List.all_takeWhile
    have hd : body.takeWhile isBlank ++ body.dropWhile isBlank = body :=
      List.takeWhile_append_dropWhile
    have ⟨s, r, hs, hu, hr⟩ := exists_unbroken .top (body.dropWhile isBlank)
    cases s
    case nil =>
      -- The rest can not begin with a blank, so it is empty.
      cases r
      case nil      =>
        rw [hs, List.append_nil, List.append_nil] at hd
        exact ⟨_, [], hd ▸ hb |> Spaced.nil⟩
      case cons c r =>
        have := List.head?_dropWhile_not isBlank body
        simp [hs, (hr c rfl).2] at this
    case cons c s =>
      rw [hs] at hd
      obtain ⟨w, l, hw⟩ := hi r.length (by grind) r rfl
      have ht : IsToken (c :: s) := ⟨nofun, hu⟩
      exact ⟨_, _, hd ▸ hw.cons hb ht hr⟩

-- The tokens of a text are the only ones that it can be divided into, and joined by spaces they
-- are found again.
theorem tokens_spaced (body : Text) :
    (∃ front l, Spaced body front l) ∧
    (∀ front l, Spaced body front l → tokens body = l.map Prod.fst) ∧
    (∀ t ∈ tokens body, IsToken t) ∧
    (∀ t ∈ (tokens body).dropLast, Nesting.top.after t = .top) ∧
    tokens (joinWith [' '] (tokens body)) = tokens body := by
  have ⟨front, l, h⟩ := exists_spaced body
  have ht : ∀ t ∈ l.map Prod.fst, IsToken t := List.forall_mem_map.mpr h.token
  have hc : ∀ t ∈ (l.map Prod.fst).dropLast, Nesting.top.after t = .top := by
    rw [← List.map_dropLast]
    exact List.forall_mem_map.mpr fun x hx =>
      h.closed x ((List.dropLast_sublist l).subset hx) (h.apart x hx)
  refine ⟨⟨front, l, h⟩, fun _ _ h => h.tokens, ?_⟩
  rw [h.tokens]
  exact ⟨ht, hc, tokens_joinWith ht hc⟩

-- Brackets that nothing has opened, blanks in brackets and in quotes, and a bracket and a quote that
-- stay open.
theorem tokens_spaced_unbalanced :
    let body := "]) a=[1  2]\t\"b c\"d ((e) \"f \\\" ".toList
    let ts := ["])".toList, "a=[1  2]".toList, "\"b c\"d".toList, "((e) \"f \\\" ".toList]
    (∃ front l, Spaced body front l ∧ l.map Prod.fst = ts) ∧ tokens (joinWith [' '] ts) = ts := by
  intro body ts
  have ⟨⟨front, l, h⟩, hl, _, _, again⟩ := tokens_spaced body
  have ht : tokens body = ts := by decide
  exact ⟨⟨front, l, h, (hl front l h).symm.trans ht⟩, ht ▸ again⟩

end LogOrigin.Fields
