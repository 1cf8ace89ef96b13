import LogOrigin.Log.Fields
import LogOrigin.Text.CharClass

-- The chain of spans at the front of a message: names with optional field lists, with single colons
-- between them and a colon after the last one.

namespace LogOrigin

open Text

namespace SpanChain

-- A character of a span name after the first one.
def isNameChar (c : Char) : Bool :=
  isAsciiAlnum c || c == '_' || c == '-' || c == '.'

-- Takes a span with its field list.
def takeSpan : Text → Option (Span × Text)
  | []     => none
  | c :: t =>
    if isIdentStart c then
      let name := c :: t.takeWhile isNameChar
      match t.dropWhile isNameChar with
      | '{' :: t => (Fields.splitBody? .top t).map fun r => (⟨name, Fields.ofText r.1⟩, r.2)
      | t        => some (⟨name, []⟩, t)
    else
      none

theorem takeSpan_length {t r : Text} {s : Span} (h : takeSpan t = some (s, r)) :
    r.length < t.length := by
  cases t with
  | nil      => simp [takeSpan] at h
  | cons c t =>
    have hd : (t.dropWhile isNameChar).length ≤ t.length :=
      (List.dropWhile_suffix _).length_le
    simp only [takeSpan] at h
    split at h
    · split at h
      · next u hu =>
        obtain ⟨⟨b, v⟩, hb, he⟩ := Option.map_eq_some_iff.1 h
        have := Fields.splitBody?_append hb
        simp only [Prod.mk.injEq] at he
        rw [hu] at hd
        simp only [← he.2, this, List.length_append, List.length_cons] at hd ⊢
        omega
      · simp only [Option.some.injEq, Prod.mk.injEq] at h
        rw [← h.2, List.length_cons]
        omega
    · contradiction

-- Reads a chain. It ends at a colon that a blank or the end of the text follows; two colons in a
-- row never belong to a chain.
def read (t : Text) : Option (List Span × Text) :=
  match _h : takeSpan t with
  | some (s, ':' :: [])     => some ([s], [])
  | some (s, ':' :: c :: r) =>
    if isAsciiBlank c then some ([s], trimStart (c :: r))
    else if c = ':' then none
    else (read (c :: r)).map fun p => (s :: p.1, p.2)
  | _                       => none
termination_by t.length
decreasing_by
  have := takeSpan_length ‹_›
  simp only [List.length_cons] at *
  omega

end SpanChain

end LogOrigin
