import LogOrigin.Json.Reader
import LogOrigin.Toml.Scalar

-- The reading of TOML documents.

namespace LogOrigin

open Text

namespace Toml

def isSpace (c : Char) : Bool :=
  c == ' ' || c == '\t'

def skipSpace (t : Text) : Text :=
  t.dropWhile isSpace

-- Control characters other than the tab may stand nowhere.
def isAllowed (c : Char) : Bool :=
  c == '\t' || (32 ≤ c.toNat && c.toNat != 127)

def newline? : Text → Option Text
  | '\n' :: t         => some t
  | '\r' :: '\n' :: t => some t
  | _                 => none

-- What follows a comment, if there is one, up to the end of the line.
def skipComment? : Text → Option Text
  | '#' :: t =>
    let r := t.dropWhile (fun c => c != '\n' && c != '\r')
    if (t.takeWhile (fun c => c != '\n' && c != '\r')).all isAllowed then some r else none
  | t        => some t

-- What follows blanks, comments and line breaks.
def skipLines? : Nat → Text → Option Text
  | 0, _        => none
  | fuel + 1, t =>
    match skipComment? (skipSpace t) with
    | none   => none
    | some t =>
      match newline? t with
      | some t => skipLines? fuel t
      | none   => some t

-- The character with a code of `n` hexadecimal digits.
def codePoint? (n : Nat) (t : Text) : Option (Char × Text) :=
  match takeShape (List.replicate n isHexDigit) t with
  | some (d, t) =>
    let v := (numberOf 16 d).toNat
    if v < 0xD800 || (0xE000 ≤ v && v < 0x110000) then some (Char.ofNat v, t) else none
  | none        => none

-- What follows a backslash.
def escape? : Text → Option (Char × Text)
  | 'b' :: t  => some (Char.ofNat 8, t)
  | 't' :: t  => some ('\t', t)
  | 'n' :: t  => some ('\n', t)
  | 'f' :: t  => some (Char.ofNat 12, t)
  | 'r' :: t  => some ('\r', t)
  | 'e' :: t  => some (Char.ofNat 27, t)
  | '"' :: t  => some ('"', t)
  | '\\' :: t => some ('\\', t)
  | 'x' :: t  => codePoint? 2 t
  | 'u' :: t  => codePoint? 4 t
  | 'U' :: t  => codePoint? 8 t
  | _         => none

-- Reads a string of one line after its opening quote.
def basic? : Nat → Text → Text → Option (Text × Text)
  | 0, _, _             => none
  | _, _, []            => none
  | fuel + 1, acc, c :: t =>
    if c = '"' then some (acc.reverse, t)
    else if c = '\\' then
      match escape? t with
      | some (d, t) => basic? fuel (d :: acc) t
      | none        => none
    else if isAllowed c then basic? fuel (c :: acc) t
    else none

def literal? (t : Text) : Option (Text × Text) :=
  let s := t.takeWhile (· != '\'')
  match t.dropWhile (· != '\'') with
  | _ :: r => if s.all isAllowed then some (s, r) else none
  | []     => none

-- The end of a string in three quotes: up to two more quotes belong to the string.
def close? (quote : Char) (acc : Text) (t : Text) : Option (Text × Text) :=
  let n := (t.takeWhile (· == quote)).length
  if n < 3 then none
  else if n ≤ 5 then some (acc.reverse ++ List.replicate (n - 3) quote, t.drop n)
  else some (acc.reverse ++ [quote, quote], t.drop 5)

-- What follows blanks and line breaks.
def skipFolded : Text → Text
  | '\r' :: '\n' :: t => skipFolded t
  | c :: t            => if isSpace c || c == '\n' then skipFolded t else c :: t
  | []                => []

-- A line break that a backslash hides, with the blanks and line breaks after it.
def folded? (t : Text) : Option Text :=
  (newline? (skipSpace t)).map skipFolded

-- Reads a string of several lines after its opening quotes. Line breaks stay as they are written.
def multiline? (quote : Char) : Nat → Text → Text → Option (Text × Text)
  | 0, _, _               => none
  | _, _, []              => none
  | fuel + 1, acc, c :: t =>
    match close? quote acc (c :: t) with
    | some r => some r
    | none   =>
      if c = '\\' && quote = '"' then
        match folded? t with
        | some t => multiline? quote fuel acc t
        | none   =>
          match escape? t with
          | some (d, t) => multiline? quote fuel (d :: acc) t
          | none        => none
      else if isAllowed c || (newline? (c :: t)).isSome then multiline? quote fuel (c :: acc) t
      else none

-- A line break right after the opening quotes does not count.
def string? (t : Text) : Option (Text × Text) :=
  let several := fun quote t => multiline? quote (t.length + 1) [] ((newline? t).getD t)
  match t with
  | '"' :: '"' :: '"' :: t    => several '"' t
  | '\'' :: '\'' :: '\'' :: t => several '\'' t
  | '"' :: t                  => basic? (t.length + 1) [] t
  | '\'' :: t                 => literal? t
  | _                         => none

def isBareKey (c : Char) : Bool :=
  isAsciiAlnum c || c == '_' || c == '-'

-- One part of a key.
def keyPart? (t : Text) : Option (Text × Text) :=
  match t with
  | '"' :: t  => basic? (t.length + 1) [] t
  | '\'' :: t => literal? t
  | t         => takeRun isBareKey t

-- The parts of a key, with points between them.
def keyParts? : Nat → Text → Option (List Text × Text)
  | 0, _        => none
  | fuel + 1, t =>
    match keyPart? (skipSpace t) with
    | none        => none
    | some (k, t) =>
      match skipSpace t with
      | '.' :: t => (keyParts? fuel t).map fun r => (k :: r.1, r.2)
      | t        => some ([k], t)

-- A key has at most this many parts.
def maxParts : Nat := 80

def key? (t : Text) : Option (List Text × Text) :=
  (keyParts? (t.length + 1) t).filter (·.1.length ≤ maxParts)

def isWordEnd (c : Char) : Bool :=
  " \t\r\n#,=[]\x7b\x7d".toList.contains c

-- Takes a word outside quotes. A time may follow a date after one blank.
def takeBare (t : Text) : Text × Text :=
  let w := t.takeWhile (!isWordEnd ·)
  match t.dropWhile (!isWordEnd ·) with
  | ' ' :: r =>
    let u := r.takeWhile (!isWordEnd ·)
    if date? w = some [] && (time? u).isSome then
      (w ++ ' ' :: u, r.dropWhile (!isWordEnd ·))
    else
      (w, ' ' :: r)
  | r        => (w, r)

-- Arrays and inline tables may be nested this deep.
def maxDepth : Nat := 80

-- The key of a pair in an inline table, up to the value. Line breaks and comments may stand on both
-- sides of the equals sign.
def inlineKey? (t : Text) : Option (List Text × Text) := do
  let (k, t) ← key? t
  let t ← skipLines? (t.length + 1) t
  let t ← dropLead? ['='] t
  return (k, ← skipLines? (t.length + 1) t)

mutual

def value? (fuel depth : Nat) (t : Text) : Option (Toml × Text) :=
  match fuel, t with
  | 0, _ | _, []         => none
  | fuel + 1, c :: r     =>
    if c = '"' || c = '\'' then
      (string? (c :: r)).map fun r => (string r.1, r.2)
    else if c = '[' then
      match depth with
      | 0         => none
      | depth + 1 => (items? fuel depth [] r).map fun r => (array r.1, r.2)
    else if c = '\x7b' then
      match depth with
      | 0         => none
      | depth + 1 => (pairs? fuel depth [] r).map fun r => (table .inline r.1, r.2)
    else
      let (w, r) := takeBare (c :: r)
      (scalar? w).map fun v => (v, r)

-- The items of an array, after a bracket or comma.
def items? (fuel depth : Nat) (acc : List Toml) (t : Text) : Option (List Toml × Text) :=
  match fuel with
  | 0        => none
  | fuel + 1 =>
    match skipLines? (t.length + 1) t with
    | none            => none
    | some (']' :: t) => some (acc.reverse, t)
    | some t          =>
      match value? fuel depth t with
      | none        => none
      | some (v, t) =>
        match skipLines? (t.length + 1) t with
        | some (',' :: t) => items? fuel depth (v :: acc) t
        | some (']' :: t) => some ((v :: acc).reverse, t)
        | _               => none

-- The pairs of an inline table, after a brace or comma.
def pairs? (fuel depth : Nat) (acc : Entries) (t : Text) : Option (Entries × Text) :=
  match fuel with
  | 0        => none
  | fuel + 1 =>
    match skipLines? (t.length + 1) t with
    | none               => none
    | some ('\x7d' :: t) => some (acc, t)
    | some t             =>
      match inlineKey? t with
      | none        => none
      | some (k, t) =>
        match value? fuel depth t with
        | none        => none
        | some (v, t) =>
          match addKey k.dropLast (k.getLastD []) v acc with
          | none     => none
          | some acc =>
            match skipLines? (t.length + 1) t with
            | some (',' :: t)    => pairs? fuel depth acc t
            | some ('\x7d' :: t) => some (acc, t)
            | _                  => none

end

-- What follows the rest of a line that holds nothing more.
def endLine? (t : Text) : Option Text :=
  match skipComment? (skipSpace t) with
  | some [] => some []
  | some t  => newline? t
  | none    => none

-- A header: its key, and whether it opens an item of an array of tables.
def header? (t : Text) : Option (List Text × Bool × Text) :=
  match t with
  | '[' :: '[' :: t =>
    match key? t with
    | some (k, ']' :: ']' :: t) => some (k, true, t)
    | _                         => none
  | '[' :: t        =>
    match key? t with
    | some (k, ']' :: t) => some (k, false, t)
    | _                  => none
  | _               => none

-- Reads lines into a document. `path` leads to the table that the last header has opened.
def document? : Nat → List Text → Entries → Text → Option Entries
  | 0, _, _, _           => none
  | fuel + 1, path, m, t =>
    match skipLines? (t.length + 1) t with
    | none            => none
    | some []         => some m
    | some ('[' :: t) => do
      let (k, isItem, t) ← header? ('[' :: t)
      let t ← endLine? t
      let open' := if isItem then openItem else openTable
      let m ← open' k.dropLast (k.getLastD []) m
      document? fuel k m t
    | some t          => do
      let (k, t) ← key? t
      let t ← dropLead? ['='] t
      let (v, t) ← value? (2 * t.length + 2) maxDepth (skipSpace t)
      let t ← endLine? t
      let m ← descendHeader path (addKey k.dropLast (k.getLastD []) v) m
      document? fuel path m t

def isByteOrderMark (c : Char) : Bool :=
  c == '\uFEFF'

-- The table that a document denotes.
def read? (t : Text) : Option Entries :=
  let t := if t.head?.any isByteOrderMark then t.tail else t
  document? (t.length + 1) [] [] t

end Toml

end LogOrigin
