import LogOrigin.Json.Writer
import LogOrigin.Log.Store

-- Records, groups and caller trees as JSON.

namespace LogOrigin

namespace Encoding

-- A point in time, counted from the epoch.
structure Moment where
  seconds     : Nat
  nanoseconds : Nat
  deriving DecidableEq

def object (members : List (String × Json)) : Json :=
  .object (members.map fun m => (m.1.toList, m.2))

def natural (n : Nat) : Json :=
  .number (.natural n)

def optional {α : Type} (f : α → Json) : Option α → Json
  | some a => f a
  | none   => .null

def path (p : FilePath) : Json :=
  .string p.text

def ofFields (f : Fields) : Json :=
  .array (f.map fun e => .array [.string e.1, .string e.2])

-- A chain of spans, each one inside the one before.
def ofSpans : Span → List Span → Json
  | s, []     => object [("name", .string s.name), ("fields", ofFields s.fields), ("child", .null)]
  | s, t :: l =>
    object [("name", .string s.name), ("fields", ofFields s.fields), ("child", ofSpans t l)]

def ofMoment (m : Moment) : Json :=
  object [
    ("secs_since_epoch", natural m.seconds),
    ("nanos_since_epoch", natural m.nanoseconds)]

def ofLocation (now : Moment) (l : Location) : Json :=
  object [("file", path l.file), ("line", natural l.line), ("last_updated", ofMoment now)]

mutual

def ofNode : CallerNode → Json
  | .node i loading children => object [
    ("file_path", path i.file),
    ("line_number", natural i.line),
    ("code_snippet", .string i.snippet),
    ("function_name", .string i.function),
    ("confidence", .number (.double i.confidence)),
    ("explanation", .string i.explanation),
    ("children", ofChildren children),
    ("loading", .bool loading)]

def ofChildren : Option (List CallerNode) → Json
  | none   => .null
  | some l => .array (ofNodes l)

def ofNodes : List CallerNode → List Json
  | []     => []
  | n :: l => ofNode n :: ofNodes l

end

def ofAnalysis (a : Analysis) : Json :=
  object [
    ("static_search_string", .string a.staticText),
    ("variables", .object (a.values.map fun e => (e.1, .string e.2)))]

def ofRecord (now : Moment) (r : Record) : Json :=
  object [
    ("timestamp", .string r.timestamp),
    ("level", .string r.level.name),
    ("message", .string r.message),
    ("target", optional .string r.target),
    ("span_root", ofSpans r.spans.outer r.spans.inner),
    ("raw_text", .string r.raw),
    ("source_location_cache", optional (ofLocation now) r.location),
    ("caller_cache", optional ofNode r.callers),
    ("oracle_analysis", optional ofAnalysis r.analysis)]

def ofGroup (g : RecordGroup) : Json :=
  object [
    ("key", .string g.key),
    ("records", .array (g.records.map natural)),
    ("max_level", .string g.maxLevel.name)]

end Encoding

end LogOrigin
