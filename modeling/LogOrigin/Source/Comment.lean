import LogOrigin.Text.Blank

-- Line comments of source code.

namespace LogOrigin

open Text

namespace Comment

def isQuote (c : Char) : Bool :=
  c == '"' || c == '\x60'

-- Whether a comment starts at a character outside quotes, given its neighbours. A sharp starts one
-- only between blanks, at the ends of the line, or before another sharp.
def startsAt (before : Option Char) (c : Char) (after : Option Char) : Bool :=
  (c == '/' && after == some '/') ||
  (c == '#' && (after == none || after == some ' ' || after == some '#') &&
    before.all isAsciiBlank)

-- The quote that a character stands in, and whether a backslash stands before it.
structure Quoted where
  quote   : Char
  escaped : Bool
  deriving DecidableEq

def Quoted.step (q : Quoted) (c : Char) : Option Quoted :=
  if q.escaped then some { q with escaped := false }
  else if c = '\\' then some { q with escaped := true }
  else if c = q.quote then none
  else some q

-- The line without the comment at its end. Comment signs in quoted strings do not count.
def strip (line : Text) : Text :=
  go none none line
where
  go (before : Option Char) (quoted : Option Quoted) : Text → Text
    | []     => []
    | c :: t =>
      match quoted with
      | some q => c :: go (some c) (q.step c) t
      | none   =>
        if startsAt before c t.head? then []
        else if isQuote c then c :: go (some c) (some ⟨c, false⟩) t
        else c :: go (some c) none t

theorem strip.go_prefix (before : Option Char) (quoted : Option Quoted) (t : Text) :
    strip.go before quoted t <+: t := by
  induction t generalizing before quoted with
  | nil         => simp [go]
  | cons c t hi =>
    simp only [go]
    split
    · exact (List.prefix_cons_inj c).2 (hi ..)
    · split
      · exact List.nil_prefix
      · split <;> exact (List.prefix_cons_inj c).2 (hi ..)

theorem strip_prefix (line : Text) : strip line <+: line :=
  strip.go_prefix ..

end Comment

end LogOrigin
