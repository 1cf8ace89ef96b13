import LogOrigin.Text.Basic

-- Blanks are the characters with the Unicode property White_Space.

namespace LogOrigin

namespace Text

def isBlank (c : Char) : Bool :=
  let n := c.toNat
  (9 ≤ n && n ≤ 13) || n == 32 || n == 0x85 || n == 0xA0 || n == 0x1680 ||
  (0x2000 ≤ n && n ≤ 0x200A) || n == 0x2028 || n == 0x2029 || n == 0x202F || n == 0x205F ||
  n == 0x3000

-- The blanks of ASCII: space, tab, line feed, form feed and carriage return.
def isAsciiBlank (c : Char) : Bool :=
  c == ' ' || c == '\t' || c == '\n' || c == '\x0c' || c == '\r'

theorem isBlank_of_isAsciiBlank {c : Char} (h : isAsciiBlank c) : isBlank c := by
  simp only [isAsciiBlank, Bool.or_eq_true, beq_iff_eq] at h
  rcases h with (((h | h) | h) | h) | h <;> subst h <;> decide

def trimStart (t : Text) : Text :=
  t.dropWhile isBlank

def trimEnd (t : Text) : Text :=
  dropEndWhile isBlank t

def trim (t : Text) : Text :=
  trimEnd (trimStart t)

def isAllBlank (t : Text) : Bool :=
  t.all isBlank

-- The maximal runs of characters that are no blanks.
def words (t : Text) : List Text :=
  go [] t
where
  go (acc : Text) : Text → List Text
    | []     => if acc.isEmpty then [] else [acc.reverse]
    | c :: t =>
      if isBlank c then
        if acc.isEmpty then go [] t else acc.reverse :: go [] t
      else
        go (c :: acc) t

-- Every run of blanks becomes one space.
def squeeze : Text → Text
  | []     => []
  | c :: t => if isBlank c then ' ' :: skip t else c :: squeeze t
where
  skip : Text → Text
    | []     => []
    | c :: t => if isBlank c then skip t else c :: squeeze t

end Text

end LogOrigin
