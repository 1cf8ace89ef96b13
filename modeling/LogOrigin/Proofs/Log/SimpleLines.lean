import LogOrigin.Proofs.Log.Chain
import LogOrigin.Proofs.Log.PlainLines
import LogOrigin.Proofs.Log.Target

-- Lines with a target and a message as an emitter writes them. The records of these lines say what
-- has been written, because the grammar of span chains declines them.

namespace LogOrigin

open Text

structure SimpleLine where
  timestamp : Text
  word      : Text
  level     : Level
  names     : List Text
  message   : Text

namespace SimpleLine

def target (l : SimpleLine) : Text :=
  joinWith [':', ':'] l.names

def rest (l : SimpleLine) : Text :=
  l.target ++ ':' :: ' ' :: l.message

def text (l : SimpleLine) : Text :=
  l.timestamp ++ ' ' :: (l.word ++ ' ' :: l.rest)

-- Behind a target that can be a path the message must not look like a chain of its own, apart from
-- a single name.
structure Valid (l : SimpleLine) : Prop where
  timestamp : Timestamp.IsTimestamp l.timestamp
  level     : Level.IsWord l.word l.level
  named     : l.names ≠ []
  names     : ∀ n ∈ l.names, Target.IsIdent SpanChain.isNameChar n
  message   : ∀ c ∈ l.message.head?, isBlank c = false
  plain     : Escape.esc ∉ l.message
  oneLine   : '\n' ∉ l.message
  ends      : l.message.getLast? ≠ some '\r'
  unchained : 2 ≤ l.names.length → (∀ n ∈ l.names, Target.IsIdent isWord n) →
    ∀ spans rest, SpanChain.read l.message = some (spans, rest) →
      spans.length < 2 ∧ ∀ s ∈ spans, s.fields = []

-- What a record says about its line.
structure Describes (l : SimpleLine) (r : Record) : Prop where
  timestamp : r.timestamp = l.timestamp
  level     : r.level = l.level
  target    : r.target = some l.target
  message   : r.message = l.message
  spans     : r.spans = .single l.target []
  raw       : r.raw = l.text
  location  : r.location = none
  callers   : r.callers = none
  analysis  : r.analysis = none

variable {l : SimpleLine} {c : Char}

theorem isNameChar_cases (h : SpanChain.isNameChar c = true) :
    isWord c = true ∨ c = '-' ∨ c = '.' := by
  simp only [SpanChain.isNameChar, Bool.or_eq_true, beq_iff_eq] at h
  rcases h with ((h | rfl) | h) | h
  case inl.inl.inl => exact .inl (isWord_of_isAsciiAlnum h)
  case inl.inl.inr => exact .inl rfl
  case inl.inr     => exact .inr (.inl h)
  case inr         => exact .inr (.inr h)

theorem isTargetChar_of_isNameChar (h : SpanChain.isNameChar c = true) :
    Target.isTargetChar c = true := by
  simpa [Target.isTargetChar, or_assoc] using isNameChar_cases h

theorem isBlank_of_isNameChar (h : SpanChain.isNameChar c = true) : isBlank c = false := by
  rcases isNameChar_cases h with h | rfl | rfl
  case inl     => exact isBlank_of_isWord h
  case inr.inl => rfl
  case inr.inr => rfl

-- A character that no name of a target has is not in the target.
theorem Valid.notMem_target (h : l.Valid) (hc : c ≠ ':') (hi : isIdentStart c = false)
    (hn : SpanChain.isNameChar c = false) : c ∉ l.target := by
  intro hm
  rcases Target.forall_mem_joinWith h.names c hm with hc' | hi' | hn'
  case inl     => exact hc hc'
  case inr.inl => simp [hi] at hi'
  case inr.inr => simp [hn] at hn'

theorem Valid.header (h : l.Valid) :
    Header.read l.text = some ⟨l.timestamp, l.level, l.rest⟩ := by
  refine Header.read_text h.timestamp h.level ?_ ?_
  · obtain ⟨c, t, ht, hc⟩ := Target.joinWith_head h.named h.names
    simpa [rest, target, ht] using isBlank_of_isIdentStart hc
  · have := h.notMem_target (c := '\n') (by decide) rfl rfl
    simp [rest, this, h.oneLine]

theorem Valid.split? (h : l.Valid) : Target.split? l.rest = some (l.target, l.message) :=
  Target.split?_joinWith (fun _ => isTargetChar_of_isNameChar) h.named h.names h.message

theorem Valid.isClean (h : l.Valid) : Parser.IsClean l.text := by
  have ht : l.text =
      (l.timestamp ++ ' ' :: (l.word ++ ' ' :: (l.target ++ [':']))) ++ ' ' :: l.message := by
    simp [text, rest]
  have := h.notMem_target (c := Escape.esc) (by decide) rfl rfl
  have hs : Escape.esc ≠ ' ' ∧ Escape.esc ≠ ':' := by decide
  refine ht ▸ .of_message ?_ h.oneLine h.ends
  simp [this, h.timestamp.esc_notMem, h.level.esc_notMem, h.plain, hs]

-- Without a path in front of it, the line begins with one bare name or with two colons behind a name.
theorem Valid.read_rest (h : l.Valid) {x : List Span × Text}
    (hr : SpanChain.read l.rest = some x) : Grammar.isTrivialChain x.1 = true := by
  have hn := h.names
  have valid {n : Text} (hn : Target.IsIdent SpanChain.isNameChar n) :
      SpanChain.Written.Valid ⟨n, none⟩ :=
    ⟨by cases n <;> exact hn, nofun⟩
  match hl : l.names with
  | []          => exact absurd hl h.named
  | [n]         =>
    have hw := valid (hn n (by simp [hl]))
    have hs := SpanChain.read_end (hw.takeSpan (' ' :: l.message)) (by simp; rfl)
    have he : l.rest = SpanChain.Written.text ⟨n, none⟩ ++ ':' :: ' ' :: l.message := by
      simp [rest, target, hl, joinWith, SpanChain.Written.text]
    cases (he ▸ hr).symm.trans hs
    simp [Grammar.isTrivialChain, SpanChain.Written.span]
  | n :: m :: k =>
    have hw := valid (hn n (by simp [hl]))
    have he : l.rest = SpanChain.Written.text ⟨n, none⟩ ++
        ':' :: ':' :: (joinWith [':', ':'] (m :: k) ++ ':' :: ' ' :: l.message) := by
      simp [rest, target, hl, joinWith, SpanChain.Written.text]
    cases (he ▸ hr).symm.trans (SpanChain.read_doubled (hw.takeSpan _))

theorem Valid.spanChain (h : l.Valid) : Grammar.spanChain.parse l.text = none := by
  match hs : Target.splitPath? l.rest with
  | none        => exact Grammar.spanChain_eq_none h.header (by rw [hs]) fun _ => h.read_rest
  | some (p, t) =>
    obtain ⟨rfl, rfl, hp⟩ :=
      Target.splitPath?_joinWith rfl (fun _ => isBlank_of_isNameChar) h.names h.message hs
    obtain ⟨hn, hw⟩ := hp.of_joinWith rfl h.names
    refine Grammar.spanChain_eq_none h.header (by rw [hs]) fun x hr => ?_
    simpa [Grammar.isTrivialChain] using h.unchained hn hw x.1 x.2 hr

-- What the simple grammar reads.
def entries (l : SimpleLine) : Entries where
  timestamp := l.timestamp
  level     := l.level
  message   := l.message
  target    := some l.target
  spans     := .single l.target []
  location  := none

theorem Valid.simple (h : l.Valid) : Grammar.simple.parse l.text = some l.entries := by
  unfold Grammar.simple
  simp [h.header, h.split?, entries]

-- The record of a line says what has been written into it.
theorem parseLine_describes (h : l.Valid) : Grammar.spanChain.parse l.text = none ∧
    ∃ r, Parser.standard.parseLine l.text = some r ∧ l.Describes r := by
  refine ⟨h.spanChain, _, Parser.parseLine_simple h.timestamp h.isClean h.spanChain h.simple, ?_⟩
  constructor <;> rfl

-- A line whose target can be a path and whose message begins like a chain with one name.
def accepted : SimpleLine where
  timestamp := "2025-04-20 03:16:50,25+0100".toList
  word      := "Warning".toList
  level     := .warn
  names     := ["app".toList, "net".toList]
  message   := "peer: a:b\x7bk=1\x7d: x".toList

theorem accepted_valid : accepted.Valid where
  timestamp := .of (t := "2025-04-20 03:16:50".toList) (f := ",25".toList) (z := "+0100".toList)
    (by unfold Fits; decide) (.some rfl rfl (by decide)) (.plain (by unfold Fits; decide))
  level     := by unfold Level.IsWord; decide
  named     := nofun
  names     := List.forall_mem_cons.mpr
    ⟨⟨rfl, by decide⟩, List.forall_mem_singleton.mpr ⟨rfl, by decide⟩⟩
  message   := by decide
  plain     := by decide
  oneLine   := by decide
  ends      := by decide
  unchained := by
    rintro - - spans rest hr
    have : SpanChain.read accepted.message =
        some ([⟨"peer".toList, []⟩], "a:b\x7bk=1\x7d: x".toList) :=
      SpanChain.read_end (r := " a:b\x7bk=1\x7d: x".toList) rfl (by decide)
    cases this.symm.trans hr
    decide

theorem parseLine_describes_accepted :
    accepted.text =
        "2025-04-20 03:16:50,25+0100 Warning app::net: peer: a:b\x7bk=1\x7d: x".toList ∧
      accepted.Valid ∧ Grammar.spanChain.parse accepted.text = none ∧
      ∃ r, Parser.standard.parseLine accepted.text = some r ∧
        r.timestamp = "2025-04-20 03:16:50,25+0100".toList ∧ r.level = .warn ∧
        r.target = some "app::net".toList ∧ r.message = "peer: a:b\x7bk=1\x7d: x".toList ∧
        r.spans = .single "app::net".toList [] ∧ r.location = none := by
  obtain ⟨hn, r, hr, hd⟩ := parseLine_describes accepted_valid
  have ht : accepted.target = "app::net".toList := by decide
  exact ⟨by decide, accepted_valid, hn, r, hr, hd.timestamp, hd.level, ht ▸ hd.target, hd.message,
    ht ▸ hd.spans, hd.location⟩

end SimpleLine

end LogOrigin
