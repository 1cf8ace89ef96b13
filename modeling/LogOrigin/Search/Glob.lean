import LogOrigin.Text.Basic

-- Globs: patterns for paths, in which a star stands for anything without a slash and two stars for
-- whole directories. They are matched with the bytes of a path; if cases do not matter, then only
-- those of ASCII letters.

namespace LogOrigin

namespace Glob

inductive Part where
  | literal (c : Char)
  | anyByte
  | run
  -- Any directories in front of the rest.
  | leading
  -- Anything inside a directory.
  | inside
  -- Any directories between two parts.
  | between
  | choice (negated : Bool) (ranges : List (Char × Char))
  | oneOf (branches : List (List Part))

-- What follows an opening bracket: nothing that closes it, a range whose ends are in the wrong order,
-- or ranges and the number of characters up to the closing bracket.
inductive Ranges where
  | unclosed
  | disordered
  | closed (ranges : List (Char × Char)) (size : Nat)

-- The ranges before a closing bracket. The first character stands for itself, whatever it is.
def Ranges.read : Text → Ranges
  | []     => unclosed
  | c :: t => go [(c, c)] false 1 t
where
  go (ranges : List (Char × Char)) (extend : Bool) (n : Nat) : Text → Ranges
    | []     => unclosed
    | c :: t =>
      if c = ']' then
        closed (if extend then ('-', '-') :: ranges else ranges) (n + 1)
      else if extend then
        match ranges with
        | []          => disordered
        | (a, _) :: l => if c < a then disordered else go ((a, c) :: l) false (n + 1) t
      else if c = '-' then
        go ranges true (n + 1) t
      else
        go ((c, c) :: ranges) false (n + 1) t

-- The parts that have been read, the last one first. Each open group keeps the parts before it and
-- its branches that are complete.
structure Draft where
  current : List Part
  groups  : List (List Part × List (List Part))

namespace Draft

def empty : Draft := ⟨[], []⟩

def push (d : Draft) (p : Part) : Draft :=
  { d with current := p :: d.current }

-- Two stars that stand for whole directories take the place of the slash before them.
def replaceLast (d : Draft) (p : Part) : Draft :=
  match d.current with
  | .leading :: _ => d
  | .inside :: _ => d
  | _ :: l      => { d with current := p :: l }
  | []          => d

def openGroup (d : Draft) : Draft :=
  ⟨[], (d.current, []) :: d.groups⟩

def nextBranch (d : Draft) : Draft :=
  match d.groups with
  | []                      => d.push (.literal ',')
  | (before, branches) :: g => ⟨[], (before, d.current.reverse :: branches) :: g⟩

def closeGroup? (d : Draft) : Option Draft :=
  match d.groups with
  | []                      => none
  | (before, branches) :: g =>
    some ⟨.oneOf (d.current.reverse :: branches).reverse :: before, g⟩

-- The parts, unless a group is still open.
def parts? (d : Draft) : Option (List Part) :=
  if d.groups.isEmpty then some d.current.reverse else none

-- Two stars after a character. The result has the number of further characters that belong to them.
def stars (d : Draft) (before : Option Char) (t : Text) : Draft × Nat :=
  let plain := ((d.push .run).push .run, 0)
  if d.current.isEmpty then
    match t with
    | []       => (d.push .leading, 0)
    | '/' :: _ => (d.push .leading, 1)
    | _        => plain
  else if before != some '/' &&
      (d.groups.isEmpty || (before != some ',' && before != some '\x7b')) then
    plain
  else
    match t with
    | []       => (d.replaceLast .inside, 0)
    | '/' :: _ => (d.replaceLast .between, 1)
    | c :: _   =>
      if !d.groups.isEmpty && (c = ',' || c = '\x7d') then (d.replaceLast .inside, 0) else plain

end Draft

-- The parts of a glob. Groups and ranges must be well formed, but a bracket that is never closed
-- stands for itself, as do all after it.
def read? (t : Text) : Option (List Part) :=
  go .empty true none t
where
  go (d : Draft) (brackets : Bool) (before : Option Char) : Text → Option (List Part)
    | []              => d.parts?
    | '*' :: '*' :: t =>
      let (d, n) := d.stars before t
      go d brackets (if n = 0 then some '*' else some '/') (t.drop n)
    | '\\' :: c :: t  => go (d.push (.literal c)) brackets (some c) t
    | c :: t          =>
      if c = '*' then go (d.push .run) brackets (some c) t
      else if c = '?' then go (d.push .anyByte) brackets (some c) t
      else if c = '\x7b' then go d.openGroup brackets (some c) t
      else if c = '\x7d' then
        match d.closeGroup? with
        | some d => go d brackets (some c) t
        | none   => none
      else if c = ',' then go d.nextBranch brackets (some c) t
      else if c = '\\' then none
      else if c = '[' && brackets then
        let negated := t.head? == some '!' || t.head? == some '^'
        let inner := if negated then t.drop 1 else t
        match Ranges.read inner with
        | .closed ranges n => go (d.push (.choice negated ranges)) brackets (some ']') (inner.drop n)
        | .unclosed        => go (d.push (.literal c)) false (some c) t
        | .disordered      => none
      else go (d.push (.literal c)) brackets (some c) t
  termination_by t => t.length
  decreasing_by
    all_goals simp only [List.length_cons, List.length_drop]
    all_goals grind

-- One byte of a class, or any number of them.
inductive Atom where
  | one (p : UInt8 → Bool)
  | many (p : UInt8 → Bool)

def slash : UInt8 := 47

def isSlash (b : UInt8) : Bool :=
  b == slash

def notSlash (b : UInt8) : Bool :=
  b != slash

def anything (_ : UInt8) : Bool :=
  true

def bytes (t : Text) : List UInt8 :=
  t.flatMap String.utf8EncodeChar

def lowerByte (b : UInt8) : UInt8 :=
  if 65 ≤ b && b ≤ 90 then b + 32 else b

def upperByte (b : UInt8) : UInt8 :=
  if 97 ≤ b && b ≤ 122 then b - 32 else b

-- A byte, as it is compared with those of a pattern.
def folded (anyCase : Bool) (b : UInt8) : UInt8 :=
  if anyCase then lowerByte b else b

-- The bytes that count as the same as a byte.
def cases (anyCase : Bool) (b : UInt8) : List UInt8 :=
  if anyCase then [lowerByte b, upperByte b] else [b]

-- Whether a range has a byte. A character of several bytes stands for each of them, and the range
-- goes from the last byte of its first character to the first byte of its last one.
def rangeHas (b : UInt8) (r : Char × Char) : Bool :=
  let low := String.utf8EncodeChar r.1
  let high := String.utf8EncodeChar r.2
  low.contains b || high.contains b ||
  (r.1 != r.2 && low.getLast?.any (· ≤ b) && high.head?.any (b ≤ ·))

mutual

-- Whether a part says nothing at all.
def Part.isVoid : Part → Bool
  | .oneOf branches => allVoid branches
  | _               => false

def areVoid : List Part → Bool
  | []     => true
  | p :: l => p.isVoid && areVoid l

def allVoid : List (List Part) → Bool
  | []     => true
  | b :: l => areVoid b && allVoid l

end

mutual

-- The sequences of atoms that a part allows.
def Part.expand (anyCase : Bool) : Part → List (List Atom)
  | .literal c             =>
    [(String.utf8EncodeChar c).map fun b => .one fun x => folded anyCase x == folded anyCase b]
  | .anyByte               => [[.one notSlash]]
  | .run                   => [[.many notSlash]]
  | .leading               => [[], [.many anything, .one isSlash]]
  | .inside                => [[.one isSlash, .many anything]]
  | .between               => [[.one isSlash], [.one isSlash, .many anything, .one isSlash]]
  | .choice negated ranges =>
    [[.one fun x => (cases anyCase x).any (fun b => ranges.any (rangeHas b)) != negated]]
  | .oneOf branches        => if allVoid branches then [[]] else expandBranches anyCase branches

def expandAll (anyCase : Bool) : List Part → List (List Atom)
  | []     => [[]]
  | p :: l => (p.expand anyCase).flatMap fun a => (expandAll anyCase l).map (a ++ ·)

-- Branches that say nothing do not count.
def expandBranches (anyCase : Bool) : List (List Part) → List (List Atom)
  | []     => []
  | b :: l => (if areVoid b then [] else expandAll anyCase b) ++ expandBranches anyCase l

end

-- Whether any number of bytes of a class can be followed by others.
def matchMany (p : UInt8 → Bool) (rest : List UInt8 → Bool) : List UInt8 → Bool
  | []     => rest []
  | b :: r => rest (b :: r) || p b && matchMany p rest r

-- Whether a sequence of atoms matches all bytes.
def matchAtoms : List Atom → List UInt8 → Bool
  | [], b               => b.isEmpty
  | .one _ :: _, []     => false
  | .one p :: l, b :: r => p b && matchAtoms l r
  | .many p :: l, b     => matchMany p (matchAtoms l) b

end Glob

-- A glob, as the sequences of atoms one of which a path must match.
structure Glob where
  rows : List (List Glob.Atom)

namespace Glob

def ofText? (anyCase : Bool) (t : Text) : Option Glob :=
  match read? t with
  | none            => none
  | some [.leading] => some ⟨[[.many anything]]⟩
  | some parts      => some ⟨expandAll anyCase parts⟩

def test (g : Glob) (path : Text) : Bool :=
  let b := bytes path
  g.rows.any (matchAtoms · b)

end Glob

end LogOrigin
