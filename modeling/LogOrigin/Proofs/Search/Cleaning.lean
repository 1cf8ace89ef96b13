import LogOrigin.Proofs.Log.Target
import LogOrigin.Proofs.Log.Timestamp
import LogOrigin.Proofs.Text.Replace
import LogOrigin.Proofs.Text.Words
import LogOrigin.Search.Cleaning

-- What is left of a message without its decorations is the text behind them: each decoration is
-- taken off as a whole, and no other part of the message is.

namespace LogOrigin

open Text

namespace Cleaning

open Level

-- The level words in capitals.
def capitals : List Text :=
  words.map Prod.fst

-- A name that is no level word in capitals. Words of ASCII letters are names.
def IsName (n : Text) : Prop :=
  Target.IsIdent isWord n ∧ n ∉ capitals

instance : DecidablePred IsName :=
  fun n => inferInstanceAs (Decidable (Target.IsIdent isWord n ∧ n ∉ capitals))

-- A colon that may be missing.
def IsColon (t : Text) : Prop :=
  t = [] ∨ t = [':']

-- A level word in brackets, in any case, or a level word in capitals.
inductive IsTag : Text → Prop
  | bracketed {w v t} (hw : IsWord w v) (ht : IsColon t) : IsTag ('[' :: (w ++ ']' :: t))
  | bare {w t} (hw : w ∈ capitals) (ht : IsColon t) : IsTag (w ++ t)

inductive IsDecoration (s : Text) : Prop
  | timestamp (h : Timestamp.IsTimestamp s)
  | clock (h : Clock.IsTime s)
  | tag (h : IsTag s)

-- Decorations of a kind in front of a text, with a space behind each.
inductive Decorated (kind : Text → Prop) (rest : Text) : Text → Prop
  | rest : Decorated kind rest rest
  | decoration {s t} (hs : kind s) (h : Decorated kind rest t) :
    Decorated kind rest (s ++ ' ' :: t)

-- A text with a path of names and a colon in front of it, which may be missing.
inductive Prefixed (body : Text) : Text → Prop
  | none : Prefixed body body
  | path {names} (hn : 2 ≤ names.length) (h : ∀ n ∈ names, IsName n) :
    Prefixed body (joinWith [':', ':'] names ++ ':' :: ' ' :: body)

-- Names with colons and spaces between them.
inductive Plain : Text → Prop
  | nil : Plain []
  | mark {c t} (hc : c = ':' ∨ c = ' ') (h : Plain t) : Plain (c :: t)
  | name {n t} (hn : IsName n) (ht : t.head?.any isWord = false) (h : Plain t) : Plain (n ++ t)

-- A matcher that accepts nothing where names, colons and spaces stand.
structure Passes (m : Matcher) : Prop where
  mark : ∀ before c t, c = ':' ∨ c = ' ' → m before (c :: t) = none
  name : ∀ before n r, IsName n → before.any isWord = false → (∀ c ∈ r.head?, c = ':' ∨ c = ' ') →
    ∀ a c b, n = a ++ c :: b → m (a.getLast?.or before) (c :: (b ++ r)) = none

-- What a pass over a text makes of a piece with a space behind it.
def Turns (m : Matcher) (s s' : Text) : Prop :=
  ∀ before r, before.any isWord = false →
    replaceAll.go m [' '] before 0 (s ++ ' ' :: r) =
      s' ++ ' ' :: replaceAll.go m [' '] (some ' ') 0 r

variable {before : Option Char} {kind kind' : Text → Prop} {m : Matcher}
variable {c : Char} {colon line n r rest s s' t w : Text} {l ws : List Text}

theorem exists_of_takeCapitals {x : Text × Text} (h : takeCapitals t = some x) :
    x.1 ∈ capitals ∧ t = x.1 ++ x.2 := by
  obtain ⟨u, hu, hx⟩ := List.exists_of_findSome?_eq_some h
  obtain ⟨r, hr, rfl⟩ := Option.map_eq_some_iff.mp hx
  exact ⟨List.mem_map.mpr ⟨u, hu, rfl⟩, dropLead?_eq_some.mp hr⟩

theorem isWord_of_mem_capitals (hw : w ∈ capitals) : w ≠ [] ∧ ∀ c ∈ w, isWord c = true := by
  have h : ∀ w ∈ capitals, w ≠ [] ∧ ∀ c ∈ w, isWord c = true := by decide
  exact h w hw

-- No level word in capitals stands in the list before one that it starts.
theorem takeCapitals_append (hw : w ∈ capitals) (hr : r.head?.any isWord = false) :
    takeCapitals (w ++ r) = some (w, r) := by
  have hp : words.Pairwise fun u v => ¬u.1 <+: v.1 := by decide
  obtain ⟨u, hu, rfl⟩ := List.mem_map.mp hw
  obtain ⟨l₁, l₂, he⟩ := List.append_of_mem hu
  refine List.findSome?_eq_some_iff.mpr ⟨l₁, u, l₂, he, ?_, fun v hv => ?_⟩
  case refine_1 => rw [dropLead?_eq_some.mpr rfl, Option.map_some]
  case refine_2 =>
    have hn : ¬v.1 <+: u.1 := (List.pairwise_append.mp (he ▸ hp)).2.2 v hv u (by simp)
    refine Option.map_eq_none_iff.mpr <| Option.eq_none_iff_forall_ne_some.mpr fun q h => ?_
    rcases List.append_eq_append_iff.mp (dropLead?_eq_some.mp h) with ⟨a, ha, rfl⟩ | ⟨a, ha, _⟩
    case inr => exact hn ⟨a, ha.symm⟩
    case inl =>
      cases a
      case nil      => exact hn (by simp [ha])
      case cons c a =>
        have hm : v.1 ∈ capitals := List.mem_map.mpr ⟨v, by simp [he, hv], rfl⟩
        have hc := (isWord_of_mem_capitals hm).2 c (by simp [ha])
        rw [show isWord c = false from hr] at hc
        cases hc

theorem dropOptional_colon (hc : IsColon colon) (r : Text) :
    dropOptional ':' (colon ++ ' ' :: r) = ' ' :: r := by
  rcases hc with rfl | rfl <;> rfl

-- A level word stands apart from other words.
theorem isApart_iff (hw : w ∈ capitals) :
    (isBoundary before (w ++ r).head? && isBoundary w.getLast? r.head?) = true ↔
      before.any isWord = false ∧ r.head?.any isWord = false := by
  obtain ⟨hn, hi⟩ := isWord_of_mem_capitals hw
  have h := boundaries_iff hn hi before r
  rwa [List.getLast?_eq_some_getLast hn, Option.some_or, ← List.getLast?_eq_some_getLast hn] at h

theorem bareLevel?_append (hw : w ∈ capitals) (hc : IsColon colon)
    (hb : before.any isWord = false) (r : Text) :
    bareLevel? before (w ++ colon ++ ' ' :: r) = some (w ++ colon).length := by
  have hr : (colon ++ ' ' :: r).head?.any isWord = false := by rcases hc with rfl | rfl <;> rfl
  rw [List.append_assoc, bareLevel?, takeCapitals_append hw hr]
  simp only [(isApart_iff hw).mpr ⟨hb, hr⟩, if_true, dropOptional_colon hc, Option.some.injEq,
    List.length_append, List.length_cons]
  omega

theorem bracketedLevel?_append {v : Level} (hw : IsWord w v) (hc : IsColon colon)
    (r : Text) : bracketedLevel? ('[' :: (w ++ ']' :: colon) ++ ' ' :: r) =
      some ('[' :: (w ++ ']' :: colon)).length := by
  have ht := hw.take_bracket (colon ++ ' ' :: r)
  rw [List.cons_append, List.append_assoc, List.cons_append, bracketedLevel?, ht]
  simp only [dropOptional_colon hc, Option.some.injEq, List.length_append, List.length_cons]
  omega

theorem levelTag_mark (hc : c = ':' ∨ c = ' ') (before : Option Char) (t : Text) :
    levelTag before (c :: t) = none := by
  rcases hc with rfl | rfl <;> rfl

theorem bracketedLevel?_eq_none (h : t.head? ≠ some '[') : bracketedLevel? t = none := by
  unfold bracketedLevel?
  split
  case h_1 => exact absurd rfl h
  case h_2 => rfl

theorem levelTag_inside (h : isBoundary before t.head? = false) (hc : t.head? ≠ some '[') :
    levelTag before t = none := by
  rw [levelTag, bracketedLevel?_eq_none hc, bareLevel?]
  cases takeCapitals t <;> simp [h]

-- A word that is no level word in capitals starts none.
theorem levelTag_word (hn : n ≠ []) (hw : ∀ c ∈ n, isWord c = true) (hl : n ∉ capitals)
    (hr : r.head?.any isWord = false) (before : Option Char) :
    levelTag before (n ++ r) = none := by
  obtain ⟨c, n, rfl⟩ := List.exists_cons_of_ne_nil hn
  have hc : (c :: n ++ r).head? ≠ some '[' := by
    intro h
    obtain rfl := Option.some.inj h
    cases hw '[' (List.mem_cons_self ..)
  rw [levelTag, bracketedLevel?_eq_none hc, bareLevel?]
  split
  case h_2 => rfl
  case h_1 u q ht =>
    obtain ⟨hu, he⟩ := exists_of_takeCapitals ht
    rw [he]
    refine if_neg fun hs => hl ?_
    obtain ⟨_, hq⟩ := (isApart_iff hu).mp hs
    obtain ⟨hr, _⟩ := span_run hw (Option.any_eq_false _ _ |>.mp hr)
    obtain ⟨hq, _⟩ := span_run (isWord_of_mem_capitals hu).2 (Option.any_eq_false _ _ |>.mp hq)
    rw [he, hq] at hr
    exact hr ▸ hu

theorem IsName.exists_cons (h : IsName n) :
    ∃ c t, n = c :: t ∧ isIdentStart c = true ∧ ∀ d ∈ n, isWord d = true := by
  obtain ⟨hn, _⟩ := h
  rcases n with _ | ⟨c, t⟩
  case nil  => cases hn
  case cons =>
    exact ⟨c, t, rfl, hn.1, List.forall_mem_cons.mpr ⟨isWord_of_isIdentStart hn.1, hn.2⟩⟩

theorem Plain.head (h : Plain t) (ht : t.head?.any isWord = false) :
    ∀ c ∈ t.head?, c = ':' ∨ c = ' ' := by
  cases h
  case nil       => simp
  case mark hc _ => simpa using hc
  case name n t hn _ _ =>
    obtain ⟨c, u, rfl, hc, _⟩ := hn.exists_cons
    cases (isWord_of_isIdentStart hc).symm.trans ht

theorem IsName.isWord_of_eq {a b : Text} (h : IsName n) (hn : n = a ++ c :: b) :
    (∀ d ∈ a, isWord d = true) ∧ ∀ d ∈ c :: b, isWord d = true := by
  obtain ⟨_, _, _, _, hw⟩ := h.exists_cons
  exact List.forall_mem_append.mp (hn ▸ hw)

theorem IsName.isBoundary {a b : Text} (h : IsName n) (hn : n = a ++ c :: b) (ha : a ≠ []) :
    isBoundary (a.getLast?.or before) (some c) = false := by
  obtain ⟨hw, hc⟩ := h.isWord_of_eq hn
  have hc := hc c (List.mem_cons_self ..)
  simp [Text.isBoundary, List.getLast?_eq_some_getLast ha, hw _ (List.getLast_mem ha), hc]

theorem passes_timestamp : Passes Timestamp.matcher := by
  have hr {r : Text} (hr : ∀ c ∈ r.head?, c = ':' ∨ c = ' ') :
      ∀ c ∈ r.head?, c ≠ '-' ∧ isDigit c = false := fun c hc => by
    rcases hr c hc with rfl | rfl <;> decide
  constructor
  case mark => exact fun before c t hc =>
    Timestamp.matcher_eq_none (s := []) (by simp) (hr (by simpa using hc)) before
  case name =>
    intro before n r hn _ hh a c b he
    refine Timestamp.matcher_eq_none (s := c :: b) (fun hm => ?_) (hr hh) _
    cases (hn.isWord_of_eq he).2 '-' hm

theorem passes_clock : Passes Clock.matcher := by
  constructor
  case mark =>
    rintro before c t (rfl | rfl)
    all_goals exact Clock.matcher_eq_none rfl before
  case name =>
    intro before n r hn _ _ a c b he
    by_cases ha : a = []
    case neg => exact Clock.matcher_inside (hn.isBoundary he ha)
    case pos =>
      obtain ⟨d, t, rfl, hd, _⟩ := hn.exists_cons
      obtain ⟨rfl, _⟩ := List.cons.inj (ha ▸ he)
      exact Clock.matcher_eq_none (t := d :: (b ++ r)) (isDigit_of_isIdentStart hd) _

theorem passes_levelTag : Passes levelTag := by
  constructor
  case mark => exact fun before c t hc => levelTag_mark hc before t
  case name =>
    intro before n r hn hb hr a c b he
    by_cases ha : a = []
    case neg =>
      refine levelTag_inside (hn.isBoundary he ha) fun h => ?_
      obtain rfl := Option.some.inj h
      cases (hn.isWord_of_eq he).2 '[' (List.mem_cons_self ..)
    case pos =>
      subst ha he
      have hr : r.head?.any isWord = false := Option.any_eq_false _ _ |>.mpr fun c hc => by
        rcases hr c hc with rfl | rfl <;> rfl
      exact levelTag_word (List.cons_ne_nil c b) (hn.isWord_of_eq (a := []) rfl).2 hn.2 hr before

theorem Plain.go (h : Plain t) (hm : Passes m)
    (hb : before.any isWord = false ∨ t.head?.any isWord = false) :
    replaceAll.go m w before 0 t = t := by
  induction h generalizing before
  case nil              => rfl
  case mark hc ht hi    =>
    rw [replaceAll.go, hm.mark _ _ _ hc]
    rw [hi (.inl (by rcases hc with rfl | rfl <;> rfl))]
  case name n t hn ht h hi =>
    have hb : before.any isWord = false := by
      refine hb.resolve_right fun hh => ?_
      obtain ⟨c, u, rfl, hc, _⟩ := hn.exists_cons
      cases (isWord_of_isIdentStart hc).symm.trans hh
    rw [replaceAll.go_keep (hm.name before n t hn hb (h.head ht)), hi (.inr ht)]

theorem Turns.of_match (hm : Passes m) (hs : s ≠ []) (h : ∀ before r, before.any isWord = false →
    m before (s ++ ' ' :: r) = some s.length) : Turns m s [' '] := by
  intro before r hb
  rw [replaceAll.go_match hs (h before r hb), replaceAll.go, hm.mark _ _ _ (.inr rfl)]

theorem Turns.of_none (hm : Passes m)
    (h : ∀ before a c b r, s = a ++ c :: b → m before (c :: (b ++ ' ' :: r)) = none) :
    Turns m s s := by
  intro before r _
  rw [replaceAll.go_keep fun a c b he => h _ a c b r he, replaceAll.go, hm.mark _ _ _ (.inr rfl)]

theorem IsTag.turns (h : IsTag s) : Turns levelTag s [' '] := by
  cases h
  case bracketed hw hc =>
    refine .of_match passes_levelTag (by simp) fun before r _ => ?_
    rw [levelTag, bracketedLevel?_append hw hc]
    rfl
  case bare w colon hw hc =>
    obtain ⟨hn, hi⟩ := isWord_of_mem_capitals hw
    refine .of_match passes_levelTag (by simp [hn]) fun before r hb => ?_
    have hh : (w ++ colon ++ ' ' :: r).head? ≠ some '[' := by
      obtain ⟨c, w, rfl⟩ := List.exists_cons_of_ne_nil hn
      rintro h
      obtain rfl := Option.some.inj h
      cases hi '[' (List.mem_cons_self ..)
    rw [levelTag, bracketedLevel?_eq_none hh, bareLevel?_append hw hc hb]
    rfl

theorem isAsciiLetter_of_mem_capitals (hw : w ∈ capitals) : ∀ c ∈ w, isAsciiLetter c = true := by
  have h : ∀ w ∈ capitals, ∀ c ∈ w, isAsciiLetter c = true := by decide
  exact h w hw

-- Level tags have neither digits nor dashes.
theorem IsTag.forall_mem (h : IsTag s) : ∀ c ∈ s, isDigit c = false ∧ c ≠ '-' := by
  have hl {w : Text} (hw : ∀ c ∈ w, isAsciiLetter c = true) :
      ∀ c ∈ w, isDigit c = false ∧ c ≠ '-' := fun c hc =>
    ⟨isDigit_of_isAsciiLetter (hw c hc), by rintro rfl; cases hw '-' hc⟩
  have hs {colon : Text} (hc : IsColon colon) :
      ∀ c ∈ colon, isDigit c = false ∧ c ≠ '-' := by
    rcases hc with rfl | rfl <;> decide
  cases h
  case bracketed hw hc =>
    have hb : ∀ c ∈ ['[', ']'], isDigit c = false ∧ c ≠ '-' := by decide
    have hw := hl hw.forall_mem
    have hc := hs hc
    simp only [List.mem_cons, List.mem_append]
    rintro c (rfl | hm | rfl | hm)
    · exact hb '[' (by simp)
    · exact hw c hm
    · exact hb ']' (by simp)
    · exact hc c hm
  case bare hw hc =>
    exact List.forall_mem_append.mpr ⟨hl (isAsciiLetter_of_mem_capitals hw), hs hc⟩

-- A pass that turns decorations of one kind into those of another one leaves the text behind them.
theorem Decorated.go (h : Decorated kind rest line) (hr : Plain rest) (hm : Passes m)
    (hk : ∀ s, kind s → ∃ s', kind' s' ∧ Turns m s s') (hb : before.any isWord = false) :
    Decorated kind' rest (replaceAll.go m [' '] before 0 line) := by
  induction h generalizing before
  case rest => exact (hr.go hm (.inl hb)).symm ▸ .rest
  case decoration hs _ hi =>
    obtain ⟨s', hs', ht⟩ := hk _ hs
    exact ht _ _ hb ▸ .decoration hs' (hi rfl)

theorem Decorated.replaceAll (h : Decorated kind rest line) (hr : Plain rest) (hm : Passes m)
    (hk : ∀ s, kind s → ∃ s', kind' s' ∧ Turns m s s') :
    Decorated kind' rest (replaceAll m [' '] line) :=
  h.go hr hm hk rfl

theorem turns_timestamp (h : IsDecoration s) :
    ∃ s', (s' = [' '] ∨ Clock.IsTime s' ∨ IsTag s') ∧ Turns Timestamp.matcher s s' := by
  have hn {s : Text} (hs : '-' ∉ s) : Turns Timestamp.matcher s s := by
    refine .of_none passes_timestamp ?_
    rintro before a c b r rfl
    exact Timestamp.matcher_eq_none (s := c :: b) (by simp_all) (by simp; decide) before
  cases h
  case timestamp h =>
    obtain ⟨c, u, rfl, _⟩ := h.head
    exact ⟨[' '], .inl rfl, .of_match passes_timestamp (List.cons_ne_nil c u) fun before r _ =>
      h.matcher before r⟩
  case clock h     => exact ⟨s, .inr (.inl h), hn h.dash_notMem⟩
  case tag h       => exact ⟨s, .inr (.inr h), hn fun hm => (h.forall_mem _ hm).2 rfl⟩

theorem turns_clock (h : s = [' '] ∨ Clock.IsTime s ∨ IsTag s) :
    ∃ s', (s' = [' '] ∨ IsTag s') ∧ Turns Clock.matcher s s' := by
  have hn {s : Text} (hs : ∀ c ∈ s, isDigit c = false) : Turns Clock.matcher s s := by
    refine .of_none passes_clock ?_
    rintro before a c b r rfl
    exact Clock.matcher_eq_none (t := c :: (b ++ ' ' :: r)) (hs c (by simp)) before
  rcases h with rfl | h | h
  case inl     => exact ⟨[' '], .inl rfl, hn (by decide)⟩
  case inr.inl =>
    exact ⟨[' '], .inl rfl, .of_match passes_clock h.ne_nil fun _ r hb => h.matcher hb r⟩
  case inr.inr => exact ⟨s, .inr h, hn fun c hc => (h.forall_mem c hc).1⟩

theorem turns_levelTag (h : s = [' '] ∨ IsTag s) :
    ∃ s', s' = [' '] ∧ Turns levelTag s s' := by
  refine ⟨[' '], rfl, ?_⟩
  rcases h with rfl | h
  case inr => exact h.turns
  case inl =>
    refine .of_none passes_levelTag fun before a c b r he => ?_
    have hc : c ∈ [' '] := he ▸ by simp
    exact levelTag_mark (.inr (List.mem_singleton.mp hc)) _ _

-- A text behind decorations, before which nothing but blanks is left in the end.
theorem Decorated.blanks (h : Decorated (· = [' ']) rest line) :
    ∃ b, line = b ++ rest ∧ ∀ c ∈ b, isBlank c = true := by
  induction h
  case rest            => exact ⟨[], rfl, by simp⟩
  case decoration hs _ hi =>
    obtain ⟨b, rfl, hb⟩ := hi
    subst hs
    exact ⟨' ' :: ' ' :: b, rfl, List.forall_mem_cons.mpr ⟨rfl, List.forall_mem_cons.mpr ⟨rfl, hb⟩⟩⟩

theorem trim_passes (h : Decorated IsDecoration rest line) (hr : Plain rest) :
    trim (replaceAll levelTag [' '] (replaceAll Clock.matcher [' ']
      (replaceAll Timestamp.matcher [' '] line))) = trim rest := by
  have h₁ := h.replaceAll hr passes_timestamp fun _ => turns_timestamp
  have h₂ := h₁.replaceAll hr passes_clock fun _ => turns_clock
  have h₃ := h₂.replaceAll hr passes_levelTag fun _ => turns_levelTag
  obtain ⟨b, hl, hb⟩ := h₃.blanks
  exact (congrArg trim hl).trans (trim_blanks_append hb rest)

theorem Plain.marks (hs : ∀ c ∈ s, c = ':' ∨ c = ' ') (h : Plain t) : Plain (s ++ t) := by
  induction s
  case nil         => exact h
  case cons c s hi =>
    obtain ⟨hc, hs⟩ := List.forall_mem_cons.mp hs
    exact .mark hc (hi hs)

theorem plain_joinWith {sep : Text} (hs : ∀ c ∈ sep, c = ':' ∨ c = ' ') (hn : sep ≠ [])
    (hl : ∀ n ∈ l, IsName n) (ht : Plain t) (hh : t.head?.any isWord = false) :
    Plain (joinWith sep l ++ t) := by
  induction l using joinWith.induct
  case case1          => exact ht
  case case2 n        => exact .name (hl n (by simp)) hh ht
  case case3 n m l hi =>
    obtain ⟨hm, hl⟩ := List.forall_mem_cons.mp hl
    have hh : (sep ++ (joinWith sep (m :: l) ++ t)).head?.any isWord = false := by
      obtain ⟨c, sep, rfl⟩ := List.exists_cons_of_ne_nil hn
      rcases hs c (by simp) with rfl | rfl <;> rfl
    rw [joinWith, List.append_assoc, List.append_assoc]
    exact .name hm hh ((hi hl).marks hs)

theorem dropPath_path (hn : 2 ≤ l.length) (hl : ∀ n ∈ l, IsName n)
    (ht : ∀ c ∈ t.head?, isBlank c = false) :
    Target.dropPath (joinWith [':', ':'] l ++ ':' :: ' ' :: t) = t := by
  have hp : Target.IsPath isWord (joinWith [':', ':'] l) := ⟨l, hn, fun n hm => (hl n hm).1, rfl⟩
  rw [Target.dropPath, hp.takePath (Target.takeTail_blank rfl t).2]
  exact trimStart_eq ht

theorem dropPath_eq (h : ':' ∉ t) : Target.dropPath t = t := by
  cases ht : Target.takePath t
  case none   => rw [Target.dropPath, ht]
  case some x =>
    obtain ⟨he, l, hn, hl, hx⟩ := Target.exists_of_takePath ht
    have hc := Target.count_joinWith rfl hl
    rw [← hx] at hc
    have hm : ':' ∈ x.1 := List.count_pos_iff.mp (by omega)
    exact absurd (he ▸ List.mem_append_left x.2 hm) h

theorem IsName.word (h : IsName n) : n ≠ [] ∧ ∀ c ∈ n, isBlank c = false := by
  obtain ⟨c, t, rfl, _, hw⟩ := h.exists_cons
  exact ⟨List.cons_ne_nil c t, fun c hc => isBlank_of_isWord (hw c hc)⟩

theorem plain_words (hw : ∀ w ∈ ws, IsName w) : Plain (joinWith [' '] ws) := by
  have h : Plain (joinWith [' '] ws ++ []) := plain_joinWith (by simp) (by simp) hw .nil rfl
  rwa [List.append_nil] at h

theorem colon_notMem (hw : ∀ w ∈ ws, IsName w) : ':' ∉ joinWith [' '] ws := by
  intro h
  rcases of_mem_joinWith h with hc | ⟨w, hm, hc⟩
  case inl => cases List.mem_singleton.mp hc
  case inr =>
    obtain ⟨_, _, _, _, hw⟩ := (hw w hm).exists_cons
    cases hw ':' hc

-- Without its decorations, a text of words is left as it is but for a path in front.
theorem clean_words (h : Decorated IsDecoration (joinWith [' '] l) line)
    (hp : Plain (joinWith [' '] l)) (hl : ∀ s ∈ l, s ≠ [] ∧ ∀ c ∈ s, isBlank c = false) :
    clean line = trim (Target.dropPath (joinWith [' '] l)) := by
  rw [clean, trim_passes h hp, trim_joinWith hl, squeeze_joinWith hl]

-- Decorations in front of a text, however many of them and in whichever order, are taken off with
-- the path behind them, and all words of the text are left. Level words in capitals are decorations
-- and can not be names of the path or words of the text.
theorem clean_decorated (hn : ws ≠ []) (hw : ∀ w ∈ ws, IsName w)
    (hm : Prefixed (joinWith [' '] ws) rest) (h : Decorated IsDecoration rest line) :
    clean line = joinWith [' '] ws := by
  have hb : ∀ w ∈ ws, w ≠ [] ∧ ∀ c ∈ w, isBlank c = false := fun w hm => (hw w hm).word
  have hp := plain_words hw
  cases hm
  case none => rw [clean_words h hp hb, dropPath_eq (colon_notMem hw), trim_joinWith hb]
  case path names hns hl =>
    have he : joinWith [':', ':'] names ++ ':' :: ' ' :: joinWith [' '] ws =
        joinWith [' '] ((joinWith [':', ':'] names ++ [':']) :: ws) := by
      obtain ⟨w, ws, rfl⟩ := List.exists_cons_of_ne_nil hn
      simp [joinWith]
    have hr : Plain (joinWith [':', ':'] names ++ ':' :: ' ' :: joinWith [' '] ws) :=
      plain_joinWith (by simp) (by simp) hl (.mark (.inl rfl) (.mark (.inr rfl) hp)) rfl
    have hd := dropPath_path hns hl (isBlank_head_joinWith hb)
    have hi := Target.isBlank_joinWith (fun c => isBlank_of_isWord) fun n hm => (hl n hm).1
    rw [he] at h hr hd
    rw [clean_words h hr (List.forall_mem_cons.mpr ⟨⟨by simp, ?_⟩, hb⟩), hd, trim_joinWith hb]
    exact List.forall_mem_append.mpr ⟨hi, by decide⟩

-- All kinds of decorations, some with a colon, one of them with a space inside, in front of a path
-- and words that look like level words.
theorem clean_decorated_mixed :
    let rest := "app::WARN_1: INFOrmed of error".toList
    let line := ("[Warn]: ERROR 2025-04-20 03:16:50,25+0100 INFO: 10:04:05.5 " ++
      "app::WARN_1: INFOrmed of error").toList
    Prefixed "INFOrmed of error".toList rest ∧ Decorated IsDecoration rest line ∧
      clean line = "INFOrmed of error".toList := by
  intro rest line
  have ht : Timestamp.IsTimestamp "2025-04-20 03:16:50,25+0100".toList :=
    .of (t := "2025-04-20 03:16:50".toList) (f := ",25".toList) (z := "+0100".toList)
      (by unfold Fits; decide) (.some rfl rfl (by decide)) (.plain (by unfold Fits; decide))
  have hc : Clock.IsTime "10:04:05.5".toList :=
    .of (t := "10:04:05".toList) (f := ".5".toList) (by unfold Fits; decide)
      (.some rfl rfl (by decide))
  have hb : IsTag "[Warn]:".toList :=
    .bracketed (w := "Warn".toList) (v := .warn) (by unfold IsWord; decide) (.inr rfl)
  have he : IsTag "ERROR".toList := .bare (w := "ERROR".toList) (t := []) (by decide) (.inl rfl)
  have hi : IsTag "INFO:".toList := .bare (w := "INFO".toList) (by decide) (.inr rfl)
  have hl : line = "[Warn]:".toList ++ ' ' :: ("ERROR".toList ++ ' ' ::
      ("2025-04-20 03:16:50,25+0100".toList ++ ' ' :: ("INFO:".toList ++ ' ' ::
        ("10:04:05.5".toList ++ ' ' :: rest)))) := by decide +kernel
  have h : Decorated IsDecoration rest line := hl ▸ .decoration (.tag hb) (.decoration (.tag he)
    (.decoration (.timestamp ht) (.decoration (.tag hi) (.decoration (.clock hc) .rest))))
  have hw : ∀ w ∈ ["INFOrmed".toList, "of".toList, "error".toList], IsName w := by decide +kernel
  have hn : ∀ n ∈ ["app".toList, "WARN_1".toList], IsName n := by decide +kernel
  have hm : Prefixed "INFOrmed of error".toList rest := .path (by decide) hn
  exact ⟨hm, h, clean_decorated (by simp) hw hm h⟩

end Cleaning

end LogOrigin
