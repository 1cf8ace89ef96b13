import LogOrigin.Proofs.Log.Header
import LogOrigin.Proofs.Text.Escape
import LogOrigin.Log.Parser

-- Lines without escape sequences that begin with a timestamp. Nothing of such a line is cleaned
-- away, and no JSON is looked for in it.

namespace LogOrigin

open Text

theorem Timestamp.IsTimestamp.esc_notMem {t : Text} (h : IsTimestamp t) : Escape.esc ∉ t := by
  cases h
  case of t f z ht hf hz =>
    have ht' : Escape.esc ∉ t := ht.notMem (by decide)
    have hf' : Escape.esc ∉ f := by
      cases hf
      case none          => nofun
      case some hm hd ht =>
        rintro (_ | ⟨_, _ | ⟨_, he⟩⟩)
        case head           => cases hm
        case tail.head      => cases hd
        case tail.tail      => cases ht _ he
    have hz' : Escape.esc ∉ z := by
      cases hz
      case none    => nofun
      case utc     => decide
      case colon h => exact h.notMem (by decide)
      case plain h => exact h.notMem (by decide)
    simp [ht', hf', hz']

theorem Level.IsWord.esc_notMem {w : Text} {l : Level} (h : IsWord w l) : Escape.esc ∉ w := by
  have hn : ∀ u ∈ words, Escape.esc ∉ u.1 := by decide
  exact fun he => hn _ h (List.mem_map.mpr ⟨Escape.esc, he, rfl⟩)

theorem Grammar.spanChain_eq_some {line t message : Text} {h : Header} {leading : Option Text}
    {spans : List Span} {chain : SpanChain} (hh : Header.read line = some h)
    (hp : (match Target.splitPath? h.rest with
      | some (p, t) => (some p, t)
      | none        => (none, h.rest)) = (leading, t))
    (hr : SpanChain.read t = some (spans, message)) (ht : isTrivialChain spans = false)
    (hc : SpanChain.ofList? spans = some chain) :
    Grammar.spanChain.parse line = some {
      timestamp := h.timestamp
      level     := h.level
      message   := message
      target    := leading.orElse fun _ => Target.leadingPath? message
      spans     := chain
      location  := none } := by
  unfold Grammar.spanChain
  simp only [hh, Option.bind_eq_bind, Option.bind_some]
  split at hp
  all_goals
    cases hp
    simp [*]

theorem Grammar.spanChain_eq_none {line t : Text} {h : Header} {leading : Option Text}
    (hh : Header.read line = some h)
    (hp : (match Target.splitPath? h.rest with
      | some (p, t) => (some p, t)
      | none        => (none, h.rest)) = (leading, t))
    (hr : ∀ x, SpanChain.read t = some x → isTrivialChain x.1 = true) :
    Grammar.spanChain.parse line = none := by
  unfold Grammar.spanChain
  simp only [hh, Option.bind_eq_bind, Option.bind_some]
  split at hp
  all_goals
    cases hp
    simp only [*]
    exact Option.bind_eq_none_iff.mpr fun x hx => if_pos (hr x hx)

namespace Parser

variable {ts t : Text} {e : Entries}

-- A line that a parser takes as it is: it holds no escape sequence and no line break at its end.
structure IsClean (t : Text) : Prop where
  plain : Escape.esc ∉ t
  ends  : ∀ c ∈ t.getLast?, c ≠ '\r' ∧ c ≠ '\n'

theorem IsClean.clean (h : IsClean t) : clean t = t := by
  rw [Parser.clean, stripEscapes_eq h.plain]
  exact dropEndWhile_eq fun c hc => by simp [h.ends c hc]

theorem IsClean.of_message {a m : Text} (hp : Escape.esc ∉ a ++ ' ' :: m) (hn : '\n' ∉ m)
    (hr : m.getLast? ≠ some '\r') : IsClean (a ++ ' ' :: m) where
  plain := hp
  ends  := by
    intro c hc
    rw [List.getLast?_append_cons, List.getLast?_cons] at hc
    cases hm : m.getLast?
    case none   =>
      obtain rfl : ' ' = c := by simpa [hm] using hc
      decide
    case some d =>
      obtain rfl : d = c := by simpa [hm] using hc
      exact ⟨fun he => hr (he ▸ hm), fun he => hn (he ▸ List.mem_of_getLast? hm)⟩

theorem json_timestamp (h : Timestamp.IsTimestamp ts) (t : Text) :
    Grammar.json.parse (ts ++ t) = none := by
  obtain ⟨c, u, rfl, hd⟩ := h.head
  have hc : c ≠ '{' := by rintro rfl; cases hd
  have hb := isBlank_of_isDigit hd
  simp [Grammar.json, trim, trimStart, hb, trimEnd, head?_dropEndWhile, hc]

theorem isAllBlank_timestamp (h : Timestamp.IsTimestamp ts) (t : Text) :
    isAllBlank (ts ++ t) = false := by
  obtain ⟨c, u, rfl, hd⟩ := h.head
  simp [isAllBlank, isBlank_of_isDigit hd]

-- The entries that the grammar of span chains reads from such a line are those of its record.
theorem parseLine_spanChain (ht : Timestamp.IsTimestamp ts) (hc : IsClean (ts ++ t))
    (he : Grammar.spanChain.parse (ts ++ t) = some e) :
    parseLine standard (ts ++ t) = some (ofEntries (ts ++ t) e) := by
  simp [parseLine, hc.clean, isAllBlank_timestamp ht, standard, json_timestamp ht, he]

-- If the grammar of span chains declines the line, the simple grammar decides.
theorem parseLine_simple (ht : Timestamp.IsTimestamp ts) (hc : IsClean (ts ++ t))
    (hn : Grammar.spanChain.parse (ts ++ t) = none)
    (he : Grammar.simple.parse (ts ++ t) = some e) :
    parseLine standard (ts ++ t) = some (ofEntries (ts ++ t) e) := by
  simp [parseLine, hc.clean, isAllBlank_timestamp ht, standard, json_timestamp ht, hn, he]

end Parser

end LogOrigin
