import LogOrigin.Text.Basic

-- Spans, the scopes that a log line was written in.

namespace LogOrigin

abbrev Fields := List (Text × Text)

structure Span where
  name   : Text
  fields : Fields
  deriving DecidableEq

-- The spans around a record, the outermost one first. There is at least one.
structure SpanChain where
  outer : Span
  inner : List Span
  deriving DecidableEq

def Span.field? (s : Span) (key : Text) : Option Text :=
  (s.fields.find? (·.1 = key)).map (·.2)

namespace SpanChain

def single (name : Text) (fields : Fields) : SpanChain :=
  ⟨⟨name, fields⟩, []⟩

def ofList? : List Span → Option SpanChain
  | []     => none
  | s :: l => some ⟨s, l⟩

def toList (c : SpanChain) : List Span :=
  c.outer :: c.inner

theorem toList_of_ofList? {l : List Span} {c : SpanChain} (h : ofList? l = some c) :
    c.toList = l := by
  cases l <;> simp_all [ofList?, toList]
  simp [← h]

def depth (c : SpanChain) : Nat :=
  c.toList.length

def leaf (c : SpanChain) : Span :=
  c.inner.getLastD c.outer

-- The names joined by colons.
def path (c : SpanChain) : Text :=
  Text.joinWith [':'] (c.toList.map (·.name))

end SpanChain

end LogOrigin
