import LogOrigin.Callers.Listing
import LogOrigin.Command.Arguments
import LogOrigin.Command.Encoding
import LogOrigin.Session.Depth

-- What the commands do, and what they print.

namespace LogOrigin

open Text

-- The exit code of the program and what it prints.
structure Report where
  code   : Nat
  output : Text
  errors : Text
  deriving DecidableEq

-- Why a command fails: a message, and what caused that.
structure Complaint where
  message : Text
  causes  : List Text
  deriving DecidableEq

namespace Complaint

def causesOf : Failure → List Text
  | .file e   => [e.message]
  | .settings => ["invalid settings".toList]
  | _         => []

def ofFailure (e : Failure) : Complaint :=
  ⟨e.message, causesOf e⟩

-- A failure while something was done.
def during (what : Text) (e : Failure) : Complaint :=
  ⟨what, e.message :: causesOf e⟩

def plain (message : Text) : Complaint :=
  ⟨message, []⟩

def padLeft (width : Nat) (t : Text) : Text :=
  List.replicate (width - t.length) ' ' ++ t

-- Further lines of a cause stand below its first one.
def hang (margin : Text) (t : Text) : Text :=
  t.flatMap fun c => if c = '\n' then c :: margin else [c]

-- Several causes are numbered.
def causeLines : List Text → List Text
  | []  => []
  | [c] => ["    ".toList ++ hang "    ".toList c]
  | l   => l.zipIdx.map fun (c, n) =>
    padLeft 5 (ofNat n) ++ ": ".toList ++ hang "       ".toList c

def lines (c : Complaint) : List Text :=
  ("Error: ".toList ++ c.message) ::
  match c.causes with
  | [] => []
  | l  => [[], "Caused by:".toList] ++ causeLines l

end Complaint

namespace Report

-- Each line ends with a line feed.
def printed (lines : List Text) : Text :=
  lines.flatMap (· ++ ['\n'])

def success (lines : List Text) : Report :=
  ⟨0, printed lines, []⟩

-- A failure after some lines have been printed.
def failure (lines : List Text) (c : Complaint) : Report :=
  ⟨1, printed lines, printed c.lines⟩

def help : Report :=
  success (["Traces log lines back to their source and callers.", "",
    "Commands:",
    "  parse --log FILE [--min-level LEVEL] [--group]",
    "  errors --log FILE",
    "  locate --log FILE --repo DIR --record N [--config FILE] [--max-files N] [--show]",
    "  callers --log FILE --repo DIR --record N [--config FILE] [--max-files N] [--depth N]",
    "    [--context-cap N] [--json]", "",
    "Options:",
    "  -v, --verbose",
    "  -h, --help"].map String.toList)

def misuse : Report :=
  { help with code := 2, output := [], errors := help.output }

end Report

namespace Command

def json (v : Json) : List Text :=
  [v.pretty 0]

-- The records of a log file.
def readLog (fs : Files) (log : FilePath) : Except Complaint RecordStore :=
  match fs.read log with
  | .error e => .error ⟨"read log file ".toList ++ log.text, [e.message]⟩
  | .ok t    =>
    match RecordStore.empty.load .standard t with
    | (.error e, _)  => .error (.ofFailure e)
    | (.ok _, store) => .ok store

def recordLines (now : Encoding.Moment) (s : RecordStore) (l : Level) (grouped : Bool) :
    List Text :=
  if grouped then
    json (.array (s.groups.map Encoding.ofGroup))
  else
    json (.array ((s.atLeast l).filterMap fun id => (s.records[id]?).map (Encoding.ofRecord now)))

def runParse (fs : Files) (now : Encoding.Moment) (log : FilePath) (minLevel : Option Level)
    (grouped : Bool) : Report :=
  match readLog fs log with
  | .error c => .failure [] c
  | .ok s    => .success (recordLines now s (minLevel.getD .trace) grouped)

def errorLine (id : Nat) (r : Record) : Text :=
  Complaint.padLeft 5 (ofNat (id + 1)) ++ "  ".toList ++ r.level.name ++ "  ".toList ++ r.message

def runErrors (fs : Files) (log : FilePath) : Report :=
  match readLog fs log with
  | .error c => .failure [] c
  | .ok s    =>
    .success (s.errors.filterMap fun id => (s.records[id]?).map (errorLine id))

-- The settings for a target, some of which may be overridden.
def settingsFor (fs : Files) (t : Target) (cap : Option Nat) : Except Complaint Settings :=
  match Settings.load fs t.config (some t.repo) with
  | .error e => .error (.during "load settings".toList e)
  | .ok s    => .ok { s with
      search := { s.search with maxFiles := t.maxFiles.getD s.search.maxFiles }
      cap    := cap.getD s.cap }

def outOfRange (t : Target) (size : Nat) : Complaint :=
  .plain ("record ".toList ++ ofNat t.record ++ " out of range (batch has ".toList ++ ofNat size ++
    " records)".toList)

-- A session with the log of a target, and the place of its record.
def openSession (fs : Files) (t : Target) (cap : Option Nat) :
    Except Complaint (Session Unit × Nat) :=
  match settingsFor fs t cap with
  | .error c  => .error c
  | .ok given =>
    match (Session.offline t.repo given).loadFile fs t.log with
    | (.error e, _) => .error (.during ("load log file ".toList ++ t.log.text) e)
    | (.ok size, s) =>
      if t.record = 0 || size < t.record then .error (outOfRange t size)
      else .ok (s, t.record - 1)

-- Analyzes a record and searches for its origin.
def locateRecord (fs : Files) (s : Session Unit) (id : Nat) :
    Except Failure Resolution × Session Unit :=
  match s.analyze id with
  | (.error e, s) => (.error e, s)
  | (.ok _, s)    => s.locate fs id

def originLine (root : FilePath) (o : Origin) : Text :=
  Listing.shown root o.file ++ ':' :: ofNat (o.line + 1) ++ "  [".toList ++ o.stage.title ++ [']'] ++
    if o.isUncertain then " (low confidence)".toList else []

-- The lines of code shown on each side of an origin.
def codeRadius : Nat := 3

def codeLine (marked : Nat) (l : Nat × Text) : Text :=
  (if l.1 = marked then '>' else ' ') :: ' ' :: Complaint.padLeft 5 (ofNat (l.1 + 1)) ++
    " | ".toList ++ l.2

def showOrigin (fs : Files) (root : FilePath) (o : Origin) (withCode : Bool) : Report :=
  if withCode then
    match Excerpt.ofFile fs o.file o.line codeRadius with
    | .ok l    => .success (originLine root o :: l.map (codeLine o.line))
    | .error e => .failure [originLine root o] (.ofFailure e)
  else
    .success [originLine root o]

def runLocate (fs : Files) (t : Target) (withCode : Bool) : Report :=
  match openSession fs t none with
  | .error c    => .failure [] c
  | .ok (s, id) =>
    match (locateRecord fs s id).1 with
    | .error e      => .failure [] (.ofFailure e)
    | .ok (.found o) => showOrigin fs t.repo o withCode
    | .ok .notFound  => .success ["location unknown".toList]
    | .ok .cancelled => .failure [] (.plain "resolution was cancelled".toList)

def noLocation (t : Target) : Complaint :=
  .plain ("record ".toList ++ ofNat t.record ++ " has no known source location".toList)

def noTree : Complaint :=
  .plain "caller tree missing after expansion".toList

-- The caller tree of a record, expanded to a depth.
def buildTree (fs : Files) (s : Session Unit) (id depth : Nat) : Except Complaint CallerNode :=
  match s.callers fs id with
  | (.error e, _) => .error (.ofFailure e)
  | (.ok _, s)    =>
    match s.expandToDepth fs id depth with
    | (.error e, _) => .error (.ofFailure e)
    | (.ok _, s)    =>
      match s.store.get id with
      | .error e => .error (.ofFailure e)
      | .ok r    =>
        match r.callers with
        | some n => .ok n
        | none   => .error noTree

def treeLines (root : FilePath) (n : CallerNode) (asJson : Bool) : List Text :=
  if asJson then json (Encoding.ofNode n) else Listing.lines root n

def runCallers (fs : Files) (t : Target) (depth : Nat) (cap : Option Nat) (asJson : Bool) :
    Report :=
  match openSession fs t cap with
  | .error c    => .failure [] c
  | .ok (s, id) =>
    match locateRecord fs s id with
    | (.error e, _)      => .failure [] (.ofFailure e)
    | (.ok .notFound, _) => .failure [] (noLocation t)
    | (.ok _, s)         =>
      match buildTree fs s id depth with
      | .error c => .failure [] c
      | .ok n    => .success (treeLines t.repo n asJson)

def run (fs : Files) (now : Encoding.Moment) : Command → Report
  | parse log minLevel grouped       => runParse fs now log minLevel grouped
  | errors log                       => runErrors fs log
  | locate target withCode           => runLocate fs target withCode
  | callers target depth cap asJson  => runCallers fs target depth cap asJson

end Command

-- The program: its report for the arguments, given the files that there are and the time.
def Invocation.report (fs : Files) (now : Encoding.Moment) : Invocation → Report
  | run c  => c.run fs now
  | help   => .help
  | misuse => .misuse

end LogOrigin
