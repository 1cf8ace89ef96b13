import LogOrigin.Proofs.Source.Block
import LogOrigin.Proofs.Source.Symbol

-- Which function the scan above a line finds, and how far the block of that function goes.

namespace LogOrigin

open Text

namespace Symbol

open Block

-- The line `start` of the lines above one with some indent is a header that the scan accepts: no
-- brace is closed on it, and below it only braces that are opened there.
structure Heads (above : List Text) (indent start : Nat) (header name : Text) : Prop where
  line     : above[start]? = some header
  declared : Declaration.name? (Comment.strip header) = some name
  unclosed : closes (Comment.strip header) = false
  settled  : Settled (code (above.drop (start + 1)))
  reaches  : opens (Comment.strip header) = true ∨ Block.indent (Comment.strip header) < indent

variable {t line header target name : Text} {l done L : List Text} {s : Symbol}
  {i j n indent : Nat}

theorem drop_above (l : List Text) (line : Text) (done : List Text) :
    (l.reverse ++ line :: done).drop (l.length + 1) = done := by
  rw [List.append_cons, List.drop_left' (by simp)]

theorem above_heads (h : Heads (l.reverse ++ line :: done) indent l.length line name) :
    above indent (unopened 0 (code done)) (line :: l) = some (l.length, name) := by
  have hs : Settled (code done) := drop_above l line done ▸ h.settled
  have hf : (Declaration.name? (Comment.strip line)).filter
      (fun _ => opens (Comment.strip line) || decide (Block.indent (Comment.strip line) < indent)) =
        some name :=
    Option.filter_eq_some_iff.mpr ⟨h.declared, by simpa using h.reaches⟩
  unfold above
  simp [unopened_eq_zero_iff.mpr hs, h.unclosed, hf]

theorem above_skip (h : ∀ name, ¬Heads (l.reverse ++ line :: done) indent l.length line name) :
    above indent (unopened 0 (code done)) (line :: l) =
      above indent (unopened 0 (code (line :: done))) l := by
  rw [code_cons, unopened_append]
  conv_lhs => unfold above
  dsimp only
  split
  case h_2         => rfl
  case h_1 name hf =>
    split at hf
    case isFalse   => cases hf
    case isTrue hp =>
      obtain ⟨hd, hr⟩ := Option.filter_eq_some_iff.mp hf
      simp only [Bool.and_eq_true, decide_eq_true_eq, Bool.not_eq_true'] at hp
      have hs := unopened_eq_zero_iff.mp hp.1
      exact absurd ⟨by simp, hd, hp.2, by rwa [drop_above], by simpa using hr⟩ (h name)

theorem line_eq (h : Heads (l.reverse ++ line :: done) indent l.length header name) :
    header = line := by
  have hl : (l.reverse ++ line :: done)[l.length]? = some line := by simp
  exact Option.some.inj (h.line.symm.trans hl)

-- The lines from `done` on have been read, and the pending braces are those that they do not open.
-- The scan goes on to the nearest header above, if there is one.
theorem above_cases (indent : Nat) (hL : L = l.reverse ++ done) :
    (∃ i header name, above indent (unopened 0 (code done)) l = some (i, name) ∧ i < l.length ∧
      Heads L indent i header name ∧
      ∀ j header name, i < j → j < l.length → ¬Heads L indent j header name) ∨
    above indent (unopened 0 (code done)) l = none ∧
      ∀ j header name, j < l.length → ¬Heads L indent j header name := by
  induction l generalizing done
  case nil            => exact .inr ⟨rfl, fun j _ _ hj => absurd hj (Nat.not_lt_zero j)⟩
  case cons line l hi =>
    have hL : L = l.reverse ++ line :: done := by simpa using hL
    by_cases hh : ∃ name, Heads L indent l.length line name
    case pos =>
      obtain ⟨name, hh⟩ := hh
      refine .inl ⟨l.length, line, name, above_heads (hL ▸ hh), Nat.lt_succ_self _, hh, ?_⟩
      intro j _ _ hi hj
      exact absurd (Nat.lt_of_lt_of_le hi (Nat.le_of_lt_succ hj)) (Nat.lt_irrefl _)
    case neg =>
      have hs := above_skip (hL ▸ fun name h => hh ⟨name, h⟩)
      -- A header on this line or further up is one further up.
      have hno {j : Nat} {header name : Text} (hj : j < (line :: l).length)
          (h : Heads L indent j header name) : j < l.length := by
        rcases Nat.lt_succ_iff_lt_or_eq.mp hj with hj | rfl
        case inl => exact hj
        case inr =>
          obtain rfl := line_eq (hL ▸ h)
          exact absurd ⟨name, h⟩ hh
      rw [hs]
      rcases hi hL with ⟨i, header, name, ha, hi, hh, hj⟩ | ⟨ha, hj⟩
      case inl =>
        refine .inl ⟨i, header, name, ha, Nat.lt_succ_of_lt hi, hh, ?_⟩
        exact fun j header name hi hl h => hj j header name hi (hno hl h) h
      case inr => exact .inr ⟨ha, fun j header name hl h => hj j header name (hno hl h) h⟩

-- The function around a line is the one declared on it, or that of the nearest header above.
inductive Encloses (lines : List Text) (n : Nat) (s : Symbol) : Prop where
  | here {target : Text} (line : lines[n]? = some target)
    (declared : Declaration.name? target = some s.name) (eq : s = ofLine lines n s.name)
  | above {target header : Text} (line : lines[n]? = some target)
    (undeclared : Declaration.name? target = none) (lt : s.startLine < n)
    (heads : Heads (lines.take n) (Block.indent target) s.startLine header s.name)
    (nearest : ∀ j header name, s.startLine < j → j < n →
      ¬Heads (lines.take n) (Block.indent target) j header name)
    (eq : s = ofLine lines s.startLine s.name)

theorem above_take (indent : Nat) (ht : (lines t)[n]? = some target) :
    (∃ i header name, above indent 0 ((lines t).take n).reverse = some (i, name) ∧ i < n ∧
      Heads ((lines t).take n) indent i header name ∧
      ∀ j header name, i < j → j < n → ¬Heads ((lines t).take n) indent j header name) ∨
    above indent 0 ((lines t).take n).reverse = none ∧
      ∀ j header name, j < n → ¬Heads ((lines t).take n) indent j header name := by
  have hl : ((lines t).take n).reverse.length = n := by
    have hn := (List.getElem?_eq_some_iff.mp ht).1
    rw [List.length_reverse, List.length_take, Nat.min_eq_left (Nat.le_of_lt hn)]
  have hL : (lines t).take n = ((lines t).take n).reverse.reverse ++ [] := by simp
  have h := above_cases indent hL
  rwa [hl] at h

theorem encloses_of_enclosing? (h : enclosing? t n = some s) : Encloses (lines t) n s := by
  unfold enclosing? at h
  dsimp only at h
  split at h
  case h_1           => cases h
  case h_2 target ht =>
    split at h
    case h_1 hd =>
      cases h
      exact .here ht hd rfl
    case h_2 hd =>
      obtain ⟨⟨i, name⟩, ha, rfl⟩ := Option.map_eq_some_iff.mp h
      rcases above_take (Block.indent target) ht
        with ⟨i', header, name', ha', hi, hh, hj⟩ | ⟨ha', _⟩
      case inl =>
        obtain ⟨rfl, rfl⟩ := Prod.mk.inj (Option.some.inj (ha.symm.trans ha'))
        exact .above ht hd hi hh hj rfl
      case inr => cases ha.symm.trans ha'

-- The scan finds something as soon as there is a header, and nothing above that header.
theorem enclosing?_of_heads (ht : (lines t)[n]? = some target) (hi : i < n)
    (h : Heads ((lines t).take n) (Block.indent target) i header name) :
    ∃ s, enclosing? t n = some s ∧ i ≤ s.startLine ∧ s.startLine ≤ n := by
  unfold enclosing?
  simp only [ht]
  split
  case h_1 name hd => exact ⟨_, rfl, Nat.le_of_lt hi, Nat.le_refl n⟩
  case h_2         =>
    rcases above_take (Block.indent target) ht
      with ⟨j, header', name', ha, hj, hh, hn⟩ | ⟨_, hn⟩
    case inl =>
      refine ⟨_, by rw [ha]; rfl, ?_, Nat.le_of_lt hj⟩
      exact Nat.le_of_not_lt fun hlt => hn i header name hlt hi h
    case inr => exact absurd h (hn i header name hi)

namespace Encloses

theorem eq_ofLine (h : Encloses (lines t) n s) : s = ofLine (lines t) s.startLine s.name := by
  cases h
  case here _ _ hs        =>
    have hl : s.startLine = n := congrArg startLine hs
    rwa [hl]
  case above _ _ _ _ _ hs => exact hs

theorem endLine_eq (h : Encloses (lines t) n s) :
    s.endLine = lastLine s.startLine ((lines t).drop s.startLine) :=
  congrArg endLine h.eq_ofLine

theorem startLine_le (h : Encloses (lines t) n s) : s.startLine ≤ n := by
  cases h
  case here _ _ hs         => exact Nat.le_of_eq (congrArg startLine hs)
  case above _ _ hl _ _ _ => exact Nat.le_of_lt hl

theorem lt_length (h : Encloses (lines t) n s) : n < (lines t).length := by
  cases h <;> exact (List.getElem?_eq_some_iff.mp ‹(lines t)[n]? = some _›).1

theorem endLine_bounds (h : Encloses (lines t) n s) :
    s.startLine ≤ s.endLine ∧ s.endLine < (lines t).length :=
  h.endLine_eq ▸ lastLine_bounds (Nat.lt_of_le_of_lt h.startLine_le h.lt_length)

-- A symbol that is declared above the line is that of a header there.
theorem exists_heads (h : Encloses (lines t) n s) (hl : s.startLine < n) :
    ∃ target header, (lines t)[n]? = some target ∧ (lines t)[s.startLine]? = some header ∧
      Heads ((lines t).take n) (Block.indent target) s.startLine header s.name := by
  cases h
  case here _ _ hs          => exact absurd (congrArg startLine hs) (Nat.ne_of_lt hl)
  case above ht _ _ hh _ _ =>
    have hh' := hh.line
    rw [List.getElem?_take_of_lt hl] at hh'
    exact ⟨_, _, ht, hh', hh⟩

end Encloses

-- The braces of a header stay open down to the line that the header was found for.
theorem Heads.depth_pos (h : Heads ((lines t).take n) indent i header name)
    (hh : (lines t)[i]? = some header) (ho : '{' ∈ Comment.strip header) {k : Nat} (hi : i ≤ k)
    (hk : k < n) : 1 ≤ depth (lines t) i k := by
  have hp := net_pos_of_opens (opens_iff.mpr ho) h.unclosed
  have hs : 0 ≤ net (code (between (lines t) i (k + 1))) :=
    h.settled _ (code_mono (between_mono hk))
  rw [depth_eq hh hi]
  omega

-- The depth below a header with open braces never falls under what it is after the header.
def Level (lines : List Text) (start line : Nat) (header : Text) : Prop :=
  ∀ u, u <+: code (between lines start line) →
    net (Comment.strip header) ≤ net (Comment.strip header ++ u)

theorem level_iff :
    Level (lines t) i n header ↔ Settled (code (((lines t).take n).drop (i + 1))) :=
  forall₂_congr fun u _ => by rw [net_append]; omega

-- A header that leaves braces open is not missed if it closes none and if, down to the line, none of
-- those it opens is closed. Otherwise it is never what is found.
theorem enclosing?_header (hi : i < n) (ht : (lines t)[n]? = some target)
    (hh : (lines t)[i]? = some header)
    (hd : (Declaration.name? (Comment.strip header)).isSome)
    (ho : 0 < net (Comment.strip header)) :
    ('}' ∉ Comment.strip header → Level (lines t) i n header →
      ∃ s, enclosing? t n = some s ∧ i ≤ s.startLine ∧ s.startLine ≤ n) ∧
    ∀ s, enclosing? t n = some s → s.startLine = i →
      '}' ∉ Comment.strip header ∧ Level (lines t) i n header := by
  have hl : ((lines t).take n)[i]? = some header := by rw [List.getElem?_take_of_lt hi, hh]
  obtain ⟨name, hd⟩ := Option.isSome_iff_exists.mp hd
  constructor
  case left =>
    intro hc hs
    have hr : Heads ((lines t).take n) (Block.indent target) i header name :=
      ⟨hl, hd, closes_eq_false_iff.mpr hc, level_iff.mp hs, .inl (opens_of_net_pos ho)⟩
    exact enclosing?_of_heads ht hi hr
  case right =>
    rintro s h rfl
    cases encloses_of_enclosing? h
    case here _ _ hs         => exact absurd (congrArg startLine hs) (Nat.ne_of_lt hi)
    case above _ _ _ hr _ _ =>
      obtain rfl := Option.some.inj (hl.symm.trans hr.line)
      exact ⟨closes_eq_false_iff.mp hr.unclosed, level_iff.mpr hr.settled⟩

theorem enclosing?_header_nested :
    let t := "fn run() \x7b\n  loop \x7b\n  \x7d\n  end()\n\x7d".toList
    ∃ s, enclosing? t 3 = some s ∧ 0 ≤ s.startLine ∧ s.startLine ≤ 3 := by
  intro t
  have ht : (lines t)[3]? = some "  end()".toList := by decide +kernel
  have hh : (lines t)[0]? = some "fn run() \x7b".toList := by decide +kernel
  have h := enclosing?_header (by decide) ht hh (by decide +kernel) (by decide +kernel)
  exact h.1 (by decide +kernel)
    (level_iff.mpr (unopened_eq_zero_iff.mp (by decide +kernel)))

-- The braces of a default value close on the header line.
theorem enclosing?_default_value :
    ¬∀ (t : Text) (i n : Nat) (header target : Text), i < n → (lines t)[n]? = some target →
      (lines t)[i]? = some header → (Declaration.name? (Comment.strip header)).isSome →
      0 < net (Comment.strip header) → (∀ k, i ≤ k → k < n → 1 ≤ depth (lines t) i k) →
      ∃ s, enclosing? t n = some s ∧ i ≤ s.startLine ∧ s.startLine ≤ n := by
  intro h
  have hd (k : Nat) (_ : 0 ≤ k) (hk : k < 1) :
      1 ≤ depth (lines "function g(a = \x7b\x7d) \x7b\n  log(a);\n\x7d\n".toList) 0 k := by
    obtain rfl : k = 0 := by omega
    decide +kernel
  obtain ⟨s, hs, _⟩ := h "function g(a = \x7b\x7d) \x7b\n  log(a);\n\x7d\n".toList 0 1
    "function g(a = \x7b\x7d) \x7b".toList "  log(a);".toList (by decide)
    (by decide +kernel) (by decide +kernel) (by decide +kernel) (by decide +kernel) hd
  have hn : enclosing? "function g(a = \x7b\x7d) \x7b\n  log(a);\n\x7d\n".toList 1 = none := by
    decide +kernel
  rw [hn] at hs
  cases hs

-- The block of a header with a brace is still open on every line from there to the line that it was
-- found for. It ends there or further down, where its depth is first at zero or below, or else it
-- has no end, and its last line is the header. All lines of a symbol are lines of the text.
theorem enclosing?_block (h : enclosing? t n = some s) :
    s.startLine ≤ n ∧ n < (lines t).length ∧ s.startLine ≤ s.endLine ∧
      s.endLine < (lines t).length ∧
    ∀ header, (lines t)[s.startLine]? = some header → s.startLine < n →
      '{' ∈ Comment.strip header →
        (∀ k, s.startLine ≤ k → k < n → 1 ≤ depth (lines t) s.startLine k) ∧
        (n ≤ s.endLine ∧ depth (lines t) s.startLine s.endLine ≤ 0 ∧
            (∀ k, s.startLine ≤ k → k < s.endLine → 1 ≤ depth (lines t) s.startLine k) ∨
          s.endLine = s.startLine ∧
            ∀ k, s.startLine ≤ k → k < (lines t).length → 1 ≤ depth (lines t) s.startLine k) := by
  have h := encloses_of_enclosing? h
  refine ⟨h.startLine_le, h.lt_length, h.endLine_bounds.1, h.endLine_bounds.2, ?_⟩
  intro header hl hlt ho
  obtain ⟨target, header', _, hl', hh⟩ := h.exists_heads hlt
  obtain rfl := Option.some.inj (hl.symm.trans hl')
  have hd (k : Nat) (hs : s.startLine ≤ k) (hk : k < n) : 1 ≤ depth (lines t) s.startLine k :=
    hh.depth_pos hl ho hs hk
  refine ⟨hd, ?_⟩
  have hb := lastLine_opened hl (opens_iff.mpr ho)
  rw [← h.endLine_eq] at hb
  rcases hb with ⟨he, hp⟩ | ⟨hs, _, hn, hp⟩
  case inl => exact .inr ⟨he, hp⟩
  case inr =>
    refine .inl ⟨Nat.le_of_not_lt fun hlt => ?_, hn, hp⟩
    have := hd s.endLine hs hlt
    omega

theorem enclosing?_block_nested :
    let t := "fn run() \x7b\n  loop \x7b\n  \x7d\n  end()\n\x7d".toList
    let s : Symbol := ⟨"run".toList, 0, 3, 4⟩
    enclosing? t 3 = some s ∧ 3 ≤ s.endLine ∧
      ∀ k, s.startLine ≤ k → k < 3 → 1 ≤ depth (lines t) s.startLine k := by
  intro t s
  have h : enclosing? t 3 = some s := by decide +kernel
  have hb := (enclosing?_block h).2.2.2.2 "fn run() \x7b".toList (by decide +kernel)
    (by decide) (by decide)
  exact ⟨h, by decide, hb.1⟩

theorem indent_strip (h : ∃ c ∈ Comment.strip line, isBlank c = false) :
    Block.indent (Comment.strip line) = Block.indent line := by
  obtain ⟨u, hu⟩ := Comment.strip_prefix line
  obtain ⟨c, hc, hb⟩ := h
  have hl : ((Comment.strip line).takeWhile isBlank).length ≠ (Comment.strip line).length := by
    intro hl
    have he := (List.takeWhile_prefix isBlank).eq_of_length hl
    have := List.mem_takeWhile_imp (he ▸ hc)
    simp [hb] at this
  conv_rhs => rw [Block.indent, ← hu, List.takeWhile_append, if_neg hl]
  rfl

theorem exists_notBlank (h : Declaration.name? line = some name) :
    ∃ c ∈ line, isBlank c = false := by
  obtain ⟨⟨w, m, rfl, hw, hc, _⟩, u, v, rfl⟩ := Declaration.name?_spec h
  obtain ⟨c, hm⟩ := List.exists_mem_of_ne_nil w hw
  refine ⟨c, by simp [hm], ?_⟩
  cases hb : isBlank c
  case false => rfl
  case true  => simpa [isWord_of_isBlank hb] using hc c hm

-- The line that a header without braces was found for is indented deeper than the header. The block
-- of the header reaches the line if and only if it does not end before a line with something on it,
-- this one or one further down, which for a line with something on it means: if and only if all lines
-- in between are blank or indented deeper than the header.
theorem enclosing?_indented (h : enclosing? t n = some s) (hl : s.startLine < n)
    (ht : (lines t)[n]? = some target) (hh : (lines t)[s.startLine]? = some header)
    (ho : '{' ∉ Comment.strip header) (hc : endsWithColon header = true) :
    Block.indent header < Block.indent target ∧
    (n ≤ s.endLine ↔ ∃ k line, n ≤ k ∧ (lines t)[k]? = some line ∧ isAllBlank line = false ∧
      ∀ u ∈ between (lines t) s.startLine (k + 1), Inside (Block.indent header) u) ∧
    (isAllBlank target = false →
      (n ≤ s.endLine ↔ ∀ u ∈ between (lines t) s.startLine n, Inside (Block.indent header) u)) := by
  have h := encloses_of_enclosing? h
  have ho' : opens (Comment.strip header) = false := by simpa [← opens_iff] using ho
  obtain ⟨target', header', ht', hh', hr⟩ := h.exists_heads hl
  obtain rfl := Option.some.inj (ht.symm.trans ht')
  obtain rfl := Option.some.inj (hh.symm.trans hh')
  have hi : Block.indent header < Block.indent target := by
    rw [← indent_strip (exists_notBlank hr.declared)]
    exact hr.reaches.resolve_left (by simp [ho'])
  have he : n ≤ s.endLine ↔ ∃ k line, n ≤ k ∧ (lines t)[k]? = some line ∧
      isAllBlank line = false ∧
        ∀ u ∈ between (lines t) s.startLine (k + 1), Inside (Block.indent header) u := by
    rw [h.endLine_eq, le_lastLine_iff hh ho' hc hl]
  refine ⟨hi, he, fun hb => he.trans ⟨?_, fun ha => ?_⟩⟩
  case refine_1 =>
    rintro ⟨k, _, hk, _, _, ha⟩ u hu
    exact ha u ((between_mono (Nat.le_succ_of_le hk)).subset hu)
  case refine_2 =>
    refine ⟨n, target, Nat.le_refl n, ht, hb, ?_⟩
    rw [between_succ hl ht]
    simpa [or_imp, forall_and] using ⟨ha, fun _ => hi⟩

theorem enclosing?_indented_branch :
    let t := "def abs(a):\n  if a > 0:\n    return a\n\n  return -a\n".toList
    let s : Symbol := ⟨"abs".toList, 0, 4, 4⟩
    enclosing? t 4 = some s ∧ 4 ≤ s.endLine ∧
      ∀ u ∈ between (lines t) s.startLine 4, Inside (Block.indent "def abs(a):".toList) u := by
  intro t s
  have h : enclosing? t 4 = some s := by decide +kernel
  have ht : (lines t)[4]? = some "  return -a".toList := by decide +kernel
  have hh : (lines t)[0]? = some "def abs(a):".toList := by decide +kernel
  have hi := enclosing?_indented h (by decide) ht hh (by decide +kernel) (by decide +kernel)
  exact ⟨h, by decide, (hi.2.2 (by decide +kernel)).mp (by decide)⟩

-- A line of a list that is written after the function.
theorem enclosing?_continuation :
    ¬∀ (t : Text) (n : Nat) (s : Symbol) (header : Text), enclosing? t n = some s →
      s.startLine < n → (lines t)[s.startLine]? = some header → '{' ∉ header →
      endsWithColon header = true → n ≤ s.endLine := by
  intro h
  have hn := h "def one():\n  return 1\n\nx = [\n  2,\n]\n".toList 4
    ⟨"one".toList, 0, 4, 1⟩ "def one():".toList (by decide +kernel) (by decide)
    (by decide +kernel) (by decide) (by decide +kernel)
  exact absurd hn (by decide)

end Symbol

end LogOrigin
