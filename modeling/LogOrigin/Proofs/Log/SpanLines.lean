import LogOrigin.Proofs.Log.Chain
import LogOrigin.Proofs.Log.Fields
import LogOrigin.Proofs.Log.PlainLines
import LogOrigin.Proofs.Log.Target

-- Lines with a chain of spans as an emitter writes them. The records of these lines say what has
-- been written.

namespace LogOrigin

open Text

namespace SpanChain

variable {t tail : Text} {chain : List Written} {w : Written}

-- No path is found before a chain: its first name is followed by a brace or by a single colon.
theorem splitPath?_written (h : w.Valid) (ht : ∀ c ∈ t.head?, c ≠ ':') :
    Target.splitPath? (w.text ++ ':' :: t) = none := by
  obtain ⟨_ | ⟨c, n⟩, body⟩ := w
  case nil  => cases h.name
  case cons =>
    have hn : ':' ∉ c :: n := by
      rintro (_ | ⟨_, hc⟩)
      case head => exact absurd h.name.1 (by decide)
      case tail => exact absurd (h.name.2 _ hc) (by decide)
    cases body
    case none   => exact Target.splitPath?_name hn (Target.takeTail_colon ht)
    case some b =>
      have := Target.splitPath?_name (r := '{' :: (b ++ '}' :: ':' :: t)) hn rfl
      simpa [Written.text] using this

theorem Splits.head (h : Splits t chain tail) : ∀ c ∈ t.head?, isBlank c = false := by
  cases chain
  case nil             => exact absurd rfl h.nonempty
  case cons w chain =>
    have ⟨c, r, hr, hc⟩ :=
      (h.valid w (List.mem_cons_self ..)).head (':' :: (chainText chain ++ tail))
    rw [h.text, chainText_cons, hr]
    simpa using isBlank_of_isIdentStart hc

theorem Splits.splitPath? (h : Splits t chain tail) : Target.splitPath? t = none := by
  cases chain
  case nil             => exact absurd rfl h.nonempty
  case cons w chain =>
    have hc {c : Char} {p : Char → Bool} (h : p c = true) (hp : p ':' = false) : c ≠ ':' := by
      rintro rfl
      simp [hp] at h
    obtain ⟨hw, ⟨-, rfl, he⟩ | ⟨c, r, rfl, hs, -⟩⟩ := h.cases_cons
    case inl => exact splitPath?_written hw fun c hc' => hc (he c hc') rfl
    case inr => exact splitPath?_written hw (by simpa using hc hs rfl)

end SpanChain

-- A span with its fields. A list of fields that is empty may be written or left out.
structure Segment where
  name   : Text
  fields : Option (List Fields.Item)

namespace Segment

def written (s : Segment) : SpanChain.Written where
  name := s.name
  body := s.fields.map Fields.listText

def span (s : Segment) : Span where
  name   := s.name
  fields := (s.fields.getD []).map Fields.Item.field

structure Valid (s : Segment) : Prop where
  name   : SpanChain.IsName s.name
  fields : ∀ l ∈ s.fields, ∀ i ∈ l, i.Valid

variable {s : Segment}

theorem Valid.written (h : s.Valid) : s.written.Valid where
  name := h.name
  body := by
    intro b hb
    obtain ⟨l, hl, rfl⟩ := Option.map_eq_some_iff.mp hb
    exact Fields.closes_listText (h.fields l hl)

theorem Valid.span_written (h : s.Valid) : s.written.span = s.span := by
  obtain ⟨name, fields⟩ := s
  cases fields
  case none   => rfl
  case some l => simp [Segment.written, Segment.span, SpanChain.Written.span,
    Fields.ofText_listText (h.fields l rfl)]

end Segment

-- A path may stand before the chain, with or without a colon.
structure SpanLine where
  timestamp : Text
  word      : Text
  level     : Level
  leading   : Option (Text × Bool)
  segments  : List Segment
  message   : Text

namespace SpanLine

def chain (l : SpanLine) : Text :=
  SpanChain.chainText (l.segments.map Segment.written) ++ ' ' :: l.message

def rest (l : SpanLine) : Text :=
  match l.leading with
  | none            => l.chain
  | some (p, false) => p ++ ' ' :: l.chain
  | some (p, true)  => p ++ ':' :: ' ' :: l.chain

def text (l : SpanLine) : Text :=
  l.timestamp ++ ' ' :: (l.word ++ ' ' :: l.rest)

structure Valid (l : SpanLine) : Prop where
  timestamp : Timestamp.IsTimestamp l.timestamp
  level     : Level.IsWord l.word l.level
  leading   : ∀ p ∈ l.leading, Target.IsPath isWord p.1
  segments  : ∀ s ∈ l.segments, s.Valid
  chained   : 2 ≤ l.segments.length ∨ ∃ s ∈ l.segments, s.span.fields ≠ []
  message   : ∀ c ∈ l.message.head?, isBlank c = false
  plain     : Escape.esc ∉ l.text
  oneLine   : '\n' ∉ l.text
  ends      : l.message.getLast? ≠ some '\r'

-- What a record says about its line. Its target is the path before the chain, or else a path at the
-- front of the message that a colon and a blank follow.
structure Describes (l : SpanLine) (r : Record) : Prop where
  timestamp : r.timestamp = l.timestamp
  level     : r.level = l.level
  message   : r.message = l.message
  spans     : r.spans.toList = l.segments.map Segment.span
  leading   : ∀ p ∈ l.leading, r.target = some p.1
  target    : l.leading = none → ∀ p, r.target = some p ↔
    Target.IsPath isWord p ∧ ∃ c t, l.message = p ++ ':' :: c :: t ∧ isBlank c = true
  raw       : r.raw = l.text
  location  : r.location = none
  callers   : r.callers = none
  analysis  : r.analysis = none

variable {l : SpanLine}

theorem Valid.splits (h : l.Valid) :
    SpanChain.Splits l.chain (l.segments.map Segment.written) (' ' :: l.message) where
  text     := rfl
  nonempty := by
    have := h.chained
    rintro hn
    simp_all
  valid    := by
    rintro _ hw
    obtain ⟨s, hs, rfl⟩ := List.mem_map.mp hw
    exact (h.segments s hs).written
  ends     := by simp; rfl

theorem Valid.read (h : l.Valid) :
    SpanChain.read l.chain = some (l.segments.map Segment.span, l.message) := by
  have hs : isBlank ' ' = true := rfl
  have hm : trimStart (' ' :: l.message) = l.message := by
    have := trimStart_eq h.message
    simp_all [trimStart]
  rw [h.splits.read, hm, List.map_map]
  congr 2
  exact List.map_congr_left fun s hs => (h.segments s hs).span_written

-- What is read before the chain.
theorem Valid.splitPath? (h : l.Valid) : (match Target.splitPath? l.rest with
    | some (p, t) => (some p, t)
    | none        => (none, l.rest)) = (l.leading.map Prod.fst, l.chain) := by
  have hc := h.splits.head
  match hl : l.leading with
  | none            =>
    have := h.splits.splitPath?
    simp [rest, hl, this]
  | some (p, false) =>
    have := (Target.splitPath?_text (h.leading _ hl) hc).1
    simp_all [rest]
  | some (p, true)  =>
    have := (Target.splitPath?_text (h.leading _ hl) hc).2
    simp_all [rest]

theorem Valid.header (h : l.Valid) :
    Header.read l.text = some ⟨l.timestamp, l.level, l.rest⟩ := by
  refine Header.read_text h.timestamp h.level ?_ ?_
  · match hl : l.leading with
    | none            => simpa [rest, hl] using h.splits.head
    | some (p, colon) =>
      obtain ⟨c, t, rfl, hc⟩ := (h.leading _ hl).head
      cases colon <;> simpa [rest, hl] using isBlank_of_isIdentStart hc
  · intro hn
    exact h.oneLine <| by simp [text, hn]

theorem Valid.not_trivial (h : l.Valid) :
    Grammar.isTrivialChain (l.segments.map Segment.span) = false := by
  simp only [Grammar.isTrivialChain, List.length_map, Bool.and_eq_false_iff]
  rcases h.chained with hl | ⟨s, hs, hf⟩
  case inl => exact .inl <| decide_eq_false <| by omega
  case inr => exact .inr <| by simpa using ⟨s, hs, hf⟩

theorem exists_text (l : SpanLine) : ∃ t, l.text = t ++ ' ' :: l.message := by
  have ⟨t, ht⟩ : ∃ t, l.rest = t ++ ' ' :: l.message := by
    match hl : l.leading with
    | none            => exact ⟨_, by simp only [rest, hl]; rfl⟩
    | some (p, colon) =>
      cases colon
      case false => exact ⟨p ++ ' ' :: _, by simp [rest, hl, chain]; rfl⟩
      case true  => exact ⟨p ++ ':' :: ' ' :: _, by simp [rest, hl, chain]; rfl⟩
  exact ⟨l.timestamp ++ ' ' :: (l.word ++ ' ' :: t), by simp [text, ht]⟩

theorem Valid.isClean (h : l.Valid) : Parser.IsClean l.text := by
  obtain ⟨t, ht⟩ := l.exists_text
  have hp := h.plain
  have hn := h.oneLine
  rw [ht] at hp hn ⊢
  exact .of_message hp (fun hm => hn (by simp [hm])) h.ends

-- What the grammar reads, with the spans as a chain.
def entries (l : SpanLine) (spans : SpanChain) : Entries where
  timestamp := l.timestamp
  level     := l.level
  message   := l.message
  target    := (l.leading.map Prod.fst).orElse fun _ => Target.leadingPath? l.message
  spans     := spans
  location  := none

theorem Valid.parseLine (h : l.Valid) : ∃ spans : SpanChain,
    spans.toList = l.segments.map Segment.span ∧
      Parser.standard.parseLine l.text = some (Parser.ofEntries l.text (l.entries spans)) := by
  obtain ⟨spans, hs⟩ : ∃ spans, SpanChain.ofList? (l.segments.map Segment.span) = some spans := by
    match hl : l.segments.map Segment.span with
    | []     => exact absurd (by simpa using hl) h.splits.nonempty
    | s :: l => exact ⟨_, rfl⟩
  refine ⟨spans, SpanChain.toList_of_ofList? hs, ?_⟩
  exact Parser.parseLine_spanChain h.timestamp h.isClean
    (Grammar.spanChain_eq_some h.header h.splitPath? h.read h.not_trivial hs)

-- The record of a line says what has been written into it.
theorem exists_describes (h : l.Valid) :
    ∃ r, Parser.standard.parseLine l.text = some r ∧ l.Describes r := by
  obtain ⟨spans, hs, hr⟩ := h.parseLine
  refine ⟨_, hr, ?_⟩
  constructor
  case spans   => exact hs
  case leading =>
    intro p hp
    simp [Parser.ofEntries, entries, Option.mem_def.mp hp]
  case target  =>
    intro hl p
    simp [Parser.ofEntries, entries, hl, Target.leadingPath?_eq_some_iff]
  all_goals rfl

-- A line with a path before its chain, and with fields whose values hold blanks.
def nested : SpanLine where
  timestamp := "2025-04-20T03:16:50.1+01:00".toList
  word      := "warning".toList
  level     := .warn
  leading   := some ("a::b".toList, true)
  segments  := [
    ⟨"c".toList, some [.quoted "x".toList "y z".toList, .plain "w".toList "[1, 2]".toList,
      .flag "f".toList]⟩,
    ⟨"d".toList, none⟩]
  message   := "m::n: x".toList

theorem nested_valid : nested.Valid where
  timestamp := .of (t := "2025-04-20T03:16:50".toList) (f := ".1".toList) (z := "+01:00".toList)
    (by unfold Fits; decide) (.some rfl rfl (by simp)) (.colon (by unfold Fits; decide))
  level     := by unfold Level.IsWord; decide
  leading   := by
    rintro _ ⟨⟩
    exact ⟨["a".toList, "b".toList], by decide, by simp [Target.IsIdent]; decide, rfl⟩
  segments  := by
    have hx : Fields.Item.Valid (.quoted "x".toList "y z".toList) :=
      ⟨by decide, by decide, .of_plain (by decide), .quoted (.of_plain (by decide)) .nil, nofun⟩
    have hw : Fields.Item.Valid (.plain "w".toList "[1, 2]".toList) :=
      ⟨by decide, by decide, .of_plain (by decide),
        .bracketed (b := "1, 2".toList) rfl (.of_plain (by decide)) rfl .nil, nofun⟩
    have hf : Fields.Item.Valid (.flag "f".toList) :=
      ⟨by decide, by decide, .of_plain (by decide), .nil, nofun⟩
    have hd : Segment.Valid ⟨"d".toList, none⟩ := ⟨⟨rfl, by decide⟩, nofun⟩
    refine List.forall_mem_cons.mpr ⟨⟨⟨rfl, by decide⟩, ?_⟩,
      List.forall_mem_singleton.mpr hd⟩
    rintro _ ⟨⟩
    simpa using ⟨hx, hw, hf⟩
  chained   := .inl (by decide)
  message   := by decide
  plain     := by decide
  oneLine   := by decide
  ends      := by decide

theorem exists_describes_nested : ∃ r,
    Parser.standard.parseLine ("2025-04-20T03:16:50.1+01:00 warning a::b: " ++
      "c\x7bx=\"y z\" w=[1, 2] f\x7d:d: m::n: x").toList = some r ∧
    r.timestamp = "2025-04-20T03:16:50.1+01:00".toList ∧ r.level = .warn ∧
    r.message = "m::n: x".toList ∧ r.target = some "a::b".toList ∧ r.spans.toList = [
      ⟨"c".toList, [("x".toList, "y z".toList), ("w".toList, "[1, 2]".toList), ("f".toList, [])]⟩,
      ⟨"d".toList, []⟩] := by
  obtain ⟨r, hr, hd⟩ := exists_describes nested_valid
  exact ⟨r, hr, hd.timestamp, hd.level, hd.message, hd.leading _ rfl, hd.spans⟩

-- The characters of the names of a program in ASCII.
def isAsciiWord (c : Char) : Bool :=
  isAsciiAlnum c || c == '_'

def accented : SpanLine where
  timestamp := "2025-04-20T03:16:50Z".toList
  word      := "INFO".toList
  level     := .info
  leading   := none
  segments  := [⟨"a".toList, none⟩, ⟨"b".toList, none⟩]
  message   := "a::b\u00e9: x".toList

theorem accented_valid : accented.Valid where
  timestamp := .of (t := "2025-04-20T03:16:50".toList) (f := []) (z := "Z".toList)
    (by unfold Fits; decide) .none .utc
  level     := by unfold Level.IsWord; decide
  leading   := nofun
  segments  := by
    have ha : Segment.Valid ⟨"a".toList, none⟩ := ⟨⟨rfl, by decide⟩, nofun⟩
    have hb : Segment.Valid ⟨"b".toList, none⟩ := ⟨⟨rfl, by decide⟩, nofun⟩
    exact List.forall_mem_cons.mpr ⟨ha, List.forall_mem_singleton.mpr hb⟩
  chained   := .inl (by decide)
  message   := by decide
  plain     := by decide
  oneLine   := by decide
  ends      := by decide

-- The names of the path may hold letters of any script.
theorem accented_target : accented.Valid ∧
    ∃ r, Parser.standard.parseLine accented.text = some r ∧ r.target = some "a::b\u00e9".toList ∧
      ¬∃ p, Target.IsPath isAsciiWord p ∧
        ∃ c t, accented.message = p ++ ':' :: c :: t ∧ isBlank c = true := by
  have ht : Target.leadingPath? accented.message = some "a::b\u00e9".toList := by decide +kernel
  obtain ⟨spans, _, hr⟩ := accented_valid.parseLine
  refine ⟨accented_valid, _, hr, ht, ?_⟩
  rintro ⟨p, hp, hm⟩
  have hw : Target.IsPath isWord p := hp.mono fun c hc => by
    simp only [isAsciiWord, Bool.or_eq_true, beq_iff_eq] at hc
    rcases hc with hc | rfl
    case inl => exact isWord_of_isAsciiAlnum hc
    case inr => rfl
  obtain rfl : p = "a::b\u00e9".toList :=
    Option.some.inj <| (Target.leadingPath?_eq_some_iff.mpr ⟨hw, hm⟩).symm.trans ht
  exact absurd (hp.forall_mem '\u00e9' (by decide)) (by decide)

end SpanLine

end LogOrigin
