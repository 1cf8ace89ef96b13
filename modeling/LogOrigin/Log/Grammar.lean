import LogOrigin.Log.Chain
import LogOrigin.Log.Header
import LogOrigin.Log.Record
import LogOrigin.Log.Target

-- The grammars of log lines.

namespace LogOrigin

open Text

-- What a grammar reads from a line.
structure Entries where
  timestamp : Text
  level     : Level
  message   : Text
  target    : Option Text
  spans     : SpanChain
  location  : Option Location
  deriving DecidableEq

-- A grammar accepts a line or declines it.
structure Grammar where
  name  : Text
  parse : Text → Option Entries

namespace Grammar

-- The keys that can hold one part of a record, the preferred one first.
structure JsonKeys where
  message : List Text
  level   : List Text
  time    : List Text
  target  : List Text
  file    : List Text
  line    : List Text

def jsonKeys : JsonKeys where
  message := ["message".toList, "msg".toList]
  level   := ["level".toList, "severity".toList, "lvl".toList]
  time    := ["timestamp".toList, "time".toList, "ts".toList, "@timestamp".toList]
  target  := ["target".toList, "module".toList, "module_path".toList, "logger".toList]
  file    := ["filename".toList, "file".toList]
  line    := ["line_number".toList, "line".toList, "lineno".toList]

-- Takes the first key that a map has, with its value, out of the map.
def takeFirst (keys : List Text) (m : KeyMap Json) : Option Json × KeyMap Json :=
  match keys.find? fun k => (KeyMap.get? k m).isSome with
  | some k => (KeyMap.get? k m, KeyMap.erase k m)
  | none   => (none, m)

-- A line number, written as a number or as text.
def lineOf : Json → Option Nat
  | .number n => n.toNat?
  | .string t => Decimal.indexOfText? t
  | _         => none

-- Emitters count lines from one.
def locationOf (file : Option Json) (line : Option Nat) : Option Location :=
  match file.map Json.plain with
  | none   => none
  | some f => if f.isEmpty then none else some ⟨⟨f⟩, line.getD 0 - 1⟩

-- The members of the nested fields, if there are any, and the other members.
def splitNested (m : KeyMap Json) : KeyMap Json × KeyMap Json :=
  match KeyMap.get? "fields".toList m with
  | some (.object nested) => (nested, KeyMap.erase "fields".toList m)
  | _                     => ([], m)

-- Every member that no part of the record has used is a field.
def ofMembers (m : KeyMap Json) : Option Entries := do
  let (nested, m) := splitNested m
  let (inner, nested) := takeFirst jsonKeys.message nested
  let (message, m) := match inner with
    | some v => (some v, m)
    | none   => takeFirst jsonKeys.message m
  let message ← message
  let (level, m) := takeFirst jsonKeys.level m
  let (time, m) := takeFirst jsonKeys.time m
  let (target, m) := takeFirst jsonKeys.target m
  let (file, m) := takeFirst jsonKeys.file m
  let (line, m) := takeFirst jsonKeys.line m
  let target := target.map Json.plain
  return {
    timestamp := (time.map Json.plain).getD []
    level     := (level.bind fun v => (Level.ofText v.plain).toOption).getD .info
    message   := message.plain
    target    := target
    spans     := .single (target.getD Record.rootName)
      ((nested ++ m).map fun e => (e.1, e.2.plain))
    location  := locationOf file (line.bind lineOf)
  }

-- A line that holds one JSON object.
def json : Grammar where
  name       := "json".toList
  parse line :=
    let t := trim line
    if t.head? = some '{' then
      match Json.read? t with
      | some (.object m) => ofMembers m
      | _                => none
    else
      none

-- A single name without fields is left to the simple grammar.
def isTrivialChain (spans : List Span) : Bool :=
  spans.length < 2 && spans.all (·.fields.isEmpty)

-- Timestamp and level, an optional path of names, a chain of spans and the message. Without a path
-- before the chain the target is the path at the front of the message.
def spanChain : Grammar where
  name       := "span-chain".toList
  parse line := do
    let header ← Header.read line
    let (leading, t) := match Target.splitPath? header.rest with
      | some (path, t) => (some path, t)
      | none           => (none, header.rest)
    let (spans, message) ← SpanChain.read t
    if isTrivialChain spans then
      none
    else
      let chain ← SpanChain.ofList? spans
      return {
        timestamp := header.timestamp
        level     := header.level
        message   := message
        target    := leading.orElse fun _ => Target.leadingPath? message
        spans     := chain
        location  := none
      }

-- Timestamp and level, an optional target and the message.
def simple : Grammar where
  name       := "simple".toList
  parse line := do
    let header ← Header.read line
    let (target, message) := match Target.split? header.rest with
      | some (target, message) => (some target, message)
      | none                   => (none, header.rest)
    return {
      timestamp := header.timestamp
      level     := header.level
      message   := message
      target    := target
      spans     := .single (target.getD Record.rootName) []
      location  := none
    }

end Grammar

end LogOrigin
