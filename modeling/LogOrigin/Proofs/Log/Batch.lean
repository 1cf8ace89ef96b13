import LogOrigin.Log.Parser
import LogOrigin.Proofs.Text.Trim
import Mathlib.Data.List.Forall2

-- Batches of log lines. No line that shows anything is dropped, and of all grammars that accept a
-- line the first one makes its record.

namespace LogOrigin

open Text

namespace Text

variable {a r t : Text} {c : Char} {read : Reader}

-- What a reader takes at the first place of a text where it takes anything.
inductive TakesFirst (read : Reader) : Text → Text → Prop
  | here {t a r : Text} : read t = some (a, r) → TakesFirst read t a
  | later {c : Char} {t a : Text} :
    read (c :: t) = none → TakesFirst read t a → TakesFirst read (c :: t) a

-- A reader that takes one or more characters off the front of a text.
def Reader.Advances (read : Reader) : Prop :=
  ∀ {t a r}, read t = some (a, r) → t = a ++ r ∧ a ≠ []

theorem findFirst?_go (h : read.Advances) (before : Option Char) (t : Text) :
    (∃ a, findFirst?.go read.matcher before t = some a ∧ TakesFirst read t a) ∨
    (findFirst?.go read.matcher before t = none ∧ ∀ u, u <:+ t → read u = none) := by
  induction t generalizing before
  case nil         =>
    have hn : read [] = none := by
      cases hr : read []
      case none   => rfl
      case some x => exact absurd (List.append_eq_nil_iff.mp (h hr).1.symm).1 (h hr).2
    exact .inr ⟨rfl, by simpa using hn⟩
  case cons c t hi =>
    match hr : read (c :: t) with
    | some (a, r) =>
      have ⟨ht, ha⟩ := h hr
      obtain ⟨d, a, rfl⟩ := List.exists_cons_of_ne_nil ha
      have hm : read.matcher before (c :: t) = some (a.length + 1) := by simp [Reader.matcher, hr]
      refine .inl ⟨d :: a, ?_, .here hr⟩
      simp only [findFirst?.go, hm]
      simp [ht]
    | none        =>
      have hg : findFirst?.go read.matcher before (c :: t) =
          findFirst?.go read.matcher (some c) t := by
        simp [findFirst?.go, Reader.matcher, hr]
      rw [hg]
      rcases hi (some c) with ⟨a, ha, hf⟩ | ⟨ha, hf⟩
      case inl => exact .inl ⟨a, ha, .later hr hf⟩
      case inr =>
        refine .inr ⟨ha, fun u hu => ?_⟩
        rcases List.suffix_cons_iff.mp hu with rfl | hu
        case inl => exact hr
        case inr => exact hf u hu

end Text

namespace Timestamp

variable {a r t : Text}

theorem takeThen_append (next : Reader) (hn : ∀ {t a r}, next t = some (a, r) → t = a ++ r)
    (x : Text × Text) :
    (takeThen x next).1 ++ (takeThen x next).2 = x.1 ++ x.2 ∧ x.1 <+: (takeThen x next).1 := by
  unfold takeThen
  split
  case h_1 b r hr => exact ⟨by rw [hn hr, List.append_assoc], List.prefix_append ..⟩
  case h_2        => exact ⟨rfl, List.prefix_rfl⟩

theorem takeFraction_append {p : Char → Bool} (h : takeFraction p t = some (a, r)) :
    t = a ++ r := by
  rcases t with _ | ⟨c, _ | ⟨d, t⟩⟩
  case nil       => cases h
  case cons.nil  => simp [takeFraction, takeRun] at h
  case cons.cons =>
    by_cases hc : p c && isDigit d
    case neg => simp_all [takeFraction, takeRun]
    case pos =>
      obtain ⟨ha, hr⟩ : c :: d :: t.takeWhile isDigit = a ∧ t.dropWhile isDigit = r := by
        simp_all [takeFraction, takeRun]
      simp [← ha, ← hr]

theorem takeZone_append (h : takeZone t = some (a, r)) : t = a ++ r := by
  unfold takeZone at h
  split at h
  case h_1 hz =>
    cases h
    exact takeShape_append hz
  case h_2 =>
    split at h
    case h_1 hz =>
      cases h
      exact takeShape_append hz
    case h_2    => exact takeShape_append h

theorem take_advances : Reader.Advances take := by
  intro t a r h
  obtain ⟨x, hx, he⟩ := Option.map_eq_some_iff.mp h
  have ⟨hf, hf'⟩ := takeThen_append (takeFraction isFractionMark) takeFraction_append x
  have ⟨hz, hz'⟩ :=
    takeThen_append takeZone takeZone_append (takeThen x (takeFraction isFractionMark))
  rw [he] at hz hz'
  constructor
  case left  => rw [takeShape_append hx, ← hf, ← hz]
  case right =>
    have hl : x.1.length = shape.length := takeShape_length hx
    have hp := (hf'.trans hz').length_le
    rintro rfl
    simp [hl, shape] at hp

-- The timestamp that a text is searched for is the first one in it, if there is any.
theorem find?_cases (t : Text) :
    (∃ a, find? t = some a ∧ TakesFirst take t a) ∨
    (find? t = none ∧ ∀ u, u <:+ t → take u = none) :=
  findFirst?_go take_advances none t

end Timestamp

namespace Parser

variable {p : Parser} {e : Entries} {line t : Text}

theorem exists_clean (raw : Text) :
    ∃ s, stripEscapes raw = clean raw ++ s ∧ ∀ c ∈ s, isBlank c = true := by
  have ⟨s, hs, hc⟩ := exists_dropEndWhile (fun c => c == '\r' || c == '\n') (stripEscapes raw)
  refine ⟨s, hs, fun c h => ?_⟩
  have hc := hc c h
  simp only [Bool.or_eq_true, beq_iff_eq] at hc
  rcases hc with rfl | rfl <;> rfl

-- A line that shows nothing once its escape sequences are gone.
def IsBlankLine (raw : Text) : Prop :=
  ∀ c ∈ stripEscapes raw, isBlank c = true

instance (raw : Text) : Decidable (IsBlankLine raw) :=
  decidable_of_iff (isAllBlank (stripEscapes raw) = true) List.all_eq_true

theorem isAllBlank_clean (raw : Text) : isAllBlank (clean raw) = true ↔ IsBlankLine raw := by
  have ⟨s, hs, hc⟩ := exists_clean raw
  rw [← isAllBlank_append hc, ← hs]
  exact List.all_eq_true

theorem trim_clean (raw : Text) : trim (clean raw) = trim (stripEscapes raw) := by
  have ⟨s, hs, hc⟩ := exists_clean raw
  rw [hs, trim_append_blanks hc]

-- The grammars decide by the line without escape sequences and line break, and the first one that
-- accepts it says what the record holds.
def Accepts (p : Parser) (raw : Text) (e : Entries) : Prop :=
  ∃ before g after, p = before ++ g :: after ∧ g.parse (clean raw) = some e ∧
    ∀ h ∈ before, h.parse (clean raw) = none

def Declines (p : Parser) (raw : Text) : Prop :=
  ∀ g ∈ p, g.parse (clean raw) = none

-- The record of a line that no grammar accepts.
structure IsFallback (raw : Text) (r : Record) : Prop where
  level    : r.level = .info
  message  : r.message = trim (stripEscapes raw)
  target   : r.target = none
  spans    : r.spans = .single Record.rootName []
  location : r.location = none
  dated    : TakesFirst Timestamp.take (clean raw) r.timestamp ∨
    r.timestamp = [] ∧ ∀ u, u <:+ clean raw → Timestamp.take u = none

-- What the record of a line is.
structure Describes (p : Parser) (line : Text) (r : Record) : Prop where
  raw      : r.raw = line
  callers  : r.callers = none
  analysis : r.analysis = none
  accepted : ∀ e, p.Accepts line e → r = ofEntries line e
  declined : p.Declines line → IsFallback line r

theorem accepts_iff : p.Accepts line e ↔ p.findSome? (·.parse (clean line)) = some e :=
  List.findSome?_eq_some_iff.symm

theorem declines_iff : p.Declines line ↔ p.findSome? (·.parse (clean line)) = none :=
  List.findSome?_eq_none_iff.symm

theorem isFallback_fallback (raw : Text) : IsFallback raw (fallback raw (clean raw)) where
  level    := rfl
  message  := trim_clean raw
  target   := rfl
  spans    := rfl
  location := rfl
  dated    := by
    rcases Timestamp.find?_cases (clean raw) with ⟨a, ha, hf⟩ | ⟨ha, hf⟩
    case inl => exact .inl <| by simpa [fallback, ha] using hf
    case inr => exact .inr ⟨by simp [fallback, ha], hf⟩

theorem parseLine_blank (h : IsBlankLine line) : p.parseLine line = none := by
  simp [parseLine, (isAllBlank_clean line).mpr h]

theorem exists_describes_line (h : ¬IsBlankLine line) :
    ∃ r, p.parseLine line = some r ∧ p.Describes line r := by
  have hb : isAllBlank (clean line) = false := by
    simpa using mt (isAllBlank_clean line).mp h
  match hp : p.findSome? (·.parse (clean line)) with
  | some e =>
    refine ⟨ofEntries line e, by simp [parseLine, hb, hp], rfl, rfl, rfl, ?_, ?_⟩
    · intro e' he
      rw [accepts_iff, hp] at he
      cases he
      rfl
    · intro hd
      rw [declines_iff, hp] at hd
      cases hd
  | none   =>
    refine ⟨fallback line (clean line), by simp [parseLine, hb, hp], rfl, rfl, rfl, ?_, ?_⟩
    · intro e he
      rw [accepts_iff, hp] at he
      cases he
    · exact fun _ => isFallback_fallback line

-- The lines of a text that show anything.
def shown (t : Text) : List Text :=
  (lines t).filter fun l => ¬IsBlankLine l

theorem forall₂_records (p : Parser) (l : List Text) :
    List.Forall₂ p.Describes (l.filter fun l => ¬IsBlankLine l) (l.filterMap p.parseLine) := by
  induction l
  case nil            => exact .nil
  case cons line l hi =>
    by_cases h : IsBlankLine line
    case pos => simpa [h, parseLine_blank h] using hi
    case neg =>
      have ⟨r, hr, hd⟩ := exists_describes_line (p := p) h
      simpa [h, hr] using And.intro hd hi

theorem shown_eq_nil_iff : shown t = [] ↔ ∀ l ∈ lines t, IsBlankLine l := by
  simp [shown]

theorem parseLine_append (q : Parser) (h : ∃ e, p.Accepts line e) :
    parseLine (p ++ q) line = p.parseLine line := by
  have ⟨e, he⟩ := h
  have he := accepts_iff.mp he
  simp [parseLine, List.findSome?_append, he]

-- A batch is refused if and only if it shows nothing. Otherwise there is one record for every line
-- that shows anything, in the order of the lines, and another grammar behind the others changes
-- none of the records that the others have made.
theorem parseBatch_describes (p : Parser) (t : Text) :
    (p.parseBatch t = .error .batchEmpty ↔ ∀ l ∈ lines t, IsBlankLine l) ∧
    ((∃ l ∈ lines t, ¬IsBlankLine l) →
      ∃ rs, p.parseBatch t = .ok rs ∧ List.Forall₂ p.Describes (shown t) rs) ∧
    (∀ g line, (∃ e, p.Accepts line e) → parseLine (p ++ [g]) line = p.parseLine line) := by
  have h : List.Forall₂ p.Describes (shown t) _ := forall₂_records p (lines t)
  have hn : (∃ l ∈ lines t, ¬IsBlankLine l) ↔ shown t ≠ [] := by simp [shown_eq_nil_iff]
  rw [← shown_eq_nil_iff, hn]
  refine ⟨?_, ?_, fun g _ => parseLine_append [g]⟩
  all_goals
    unfold parseBatch
    cases hr : (lines t).filterMap p.parseLine
    all_goals rw [hr] at h
  case refine_1.nil  => simp [List.forall₂_nil_right_iff.mp h]
  case refine_1.cons =>
    have ⟨_, _, _, _, hs⟩ := List.forall₂_cons_right_iff.mp h
    simp [hs]
  case refine_2.nil  => simp [List.forall₂_nil_right_iff.mp h]
  case refine_2.cons => exact fun _ => ⟨_, rfl, h⟩

-- A coloured line that the only grammar accepts and a line with a carriage return too many that it
-- declines, between a line that holds an escape sequence and a space and an empty one.
theorem parseBatch_describes_coloured :
    let line := "\x1b[2m2025-04-20T03:16:50Z\x1b[0m WARN a::b: m".toList
    let rest := "at 2025-01-02T10:00:00Z\r".toList
    let t := "\x1b[0m \r\n".toList ++ line ++ ['\n'] ++ rest ++ "\r\n\n".toList
    let p : Parser := [.simple]
    (∃ r r', p.parseBatch t = .ok [r, r'] ∧
      r.raw = line ∧ r.level = .warn ∧ r.target = some "a::b".toList ∧ r.message = ['m'] ∧
      r'.raw = rest ∧ r'.level = .info ∧ r'.target = none ∧
      r'.message = "at 2025-01-02T10:00:00Z".toList) ∧
    parseLine (p ++ [.json]) line = p.parseLine line := by
  intro line rest t p
  have hs : shown t = [line, rest] := by decide +kernel
  have ha : p.Accepts line ⟨"2025-04-20T03:16:50Z".toList, .warn, ['m'], some "a::b".toList,
      .single "a::b".toList [], none⟩ := ⟨[], .simple, [], rfl, by decide +kernel, nofun⟩
  have hd : p.Declines rest := List.forall_mem_singleton.mpr <| by decide +kernel
  have ⟨_, hr, hp⟩ := parseBatch_describes p t
  have ⟨rs, hb, hf⟩ := hr <| by
    by_contra hn
    simp [shown_eq_nil_iff.mpr (by simpa using hn)] at hs
  rw [hs] at hf
  obtain ⟨r, _, h, ht, rfl⟩ := List.forall₂_cons_left_iff.mp hf
  obtain ⟨r', _, h', hn, rfl⟩ := List.forall₂_cons_left_iff.mp ht
  cases hn
  have he := h.accepted _ ha
  have hf := h'.declined hd
  have hm : trim (stripEscapes rest) = "at 2025-01-02T10:00:00Z".toList := by decide +kernel
  refine ⟨⟨r, r', hb, ?_⟩, hp .json line ⟨_, ha⟩⟩
  rw [he]
  exact ⟨rfl, rfl, rfl, rfl, h'.raw, hf.level, hf.target, hf.message.trans hm⟩

end Parser

end LogOrigin
