import LogOrigin.Json.Basic
import LogOrigin.Number.Shortest

-- The written forms of JSON values: on one line without blanks, and indented by two spaces.

namespace LogOrigin

namespace JsonNumber

def render : JsonNumber → Text
  | natural n  => Text.ofNat n
  | negative n => '-' :: Text.ofNat n
  | double x   => x.render

end JsonNumber

namespace Json

def hexDigit (n : Nat) : Char :=
  if n < 10 then Char.ofNat ('0'.toNat + n) else Char.ofNat ('a'.toNat + (n - 10))

-- Quotes, backslashes and control characters are escaped and all else is written as it is.
def escape (c : Char) : Text :=
  if c = '"' then ['\\', '"']
  else if c = '\\' then ['\\', '\\']
  else if c = '\n' then ['\\', 'n']
  else if c = '\r' then ['\\', 'r']
  else if c = '\t' then ['\\', 't']
  else if c.toNat = 8 then ['\\', 'b']
  else if c.toNat = 12 then ['\\', 'f']
  else if c.toNat < 32 then
    ['\\', 'u', '0', '0', hexDigit (c.toNat / 16), hexDigit (c.toNat % 16)]
  else [c]

def quote (t : Text) : Text :=
  '"' :: t.flatMap escape ++ ['"']

mutual

def render : Json → Text
  | null       => "null".toList
  | bool true  => "true".toList
  | bool false => "false".toList
  | number n   => n.render
  | string t   => quote t
  | array vs   => '[' :: renderItems vs ++ [']']
  | object m   => '{' :: renderMembers m ++ ['}']

def renderItems : List Json → Text
  | []          => []
  | [v]         => render v
  | v :: w :: l => render v ++ ',' :: renderItems (w :: l)

def renderMembers : List (Text × Json) → Text
  | []               => []
  | [(k, v)]         => quote k ++ ':' :: render v
  | (k, v) :: e :: l => quote k ++ ':' :: render v ++ ',' :: renderMembers (e :: l)

end

def indent (depth : Nat) : Text :=
  '\n' :: List.replicate (2 * depth) ' '

mutual

-- The indented form; `depth` is the number of arrays and objects around the value.
def pretty (depth : Nat) : Json → Text
  | array (v :: vs) => '[' :: prettyItems (depth + 1) (v :: vs) ++ indent depth ++ [']']
  | object (e :: m) => '{' :: prettyMembers (depth + 1) (e :: m) ++ indent depth ++ ['}']
  | v               => render v

def prettyItems (depth : Nat) : List Json → Text
  | []          => []
  | [v]         => indent depth ++ pretty depth v
  | v :: w :: l => indent depth ++ pretty depth v ++ ',' :: prettyItems depth (w :: l)

def prettyMembers (depth : Nat) : List (Text × Json) → Text
  | []               => []
  | [(k, v)]         => indent depth ++ quote k ++ ": ".toList ++ pretty depth v
  | (k, v) :: e :: l =>
    indent depth ++ quote k ++ ": ".toList ++ pretty depth v ++ ',' :: prettyMembers depth (e :: l)

end

-- The text of a value inside a message: strings stand for themselves and null for nothing.
def plain : Json → Text
  | string t => t
  | null     => []
  | v        => render v

end Json

end LogOrigin
