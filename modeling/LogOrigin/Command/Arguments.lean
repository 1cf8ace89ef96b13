import LogOrigin.FilePath
import LogOrigin.Log.Level
import LogOrigin.Number.Decimal

-- The commands of the program and their reading from arguments.

namespace LogOrigin

open Text

-- A record of a log, and the repository that it comes from.
structure Target where
  log      : FilePath
  repo     : FilePath
  -- The place of the record in the log, counted from one.
  record   : Nat
  config   : Option FilePath
  maxFiles : Option Nat
  deriving DecidableEq

inductive Command where
  | parse (log : FilePath) (minLevel : Option Level) (grouped : Bool)
  | errors (log : FilePath)
  | locate (target : Target) (withCode : Bool)
  | callers (target : Target) (depth : Nat) (cap : Option Nat) (asJson : Bool)
  deriving DecidableEq

inductive Invocation where
  | run (c : Command)
  | help
  | misuse
  deriving DecidableEq

namespace Arguments

-- An option with a value, and the values that it accepts.
structure ValueOption where
  name    : Text
  accepts : Text → Bool

-- What a command accepts.
structure Form where
  values : List ValueOption
  flags  : List Text

-- What has been given.
structure Given where
  values : List (Text × Text)
  flags  : List Text

def Given.empty : Given := ⟨[], []⟩

def isPath (t : Text) : Bool :=
  !t.isEmpty

def isCount (t : Text) : Bool :=
  (Decimal.indexOfText? t).isSome

def isLevel (t : Text) : Bool :=
  match Level.ofText t with
  | .ok _    => true
  | .error _ => false

def pathOption (name : String) : ValueOption :=
  ⟨name.toList, isPath⟩

def countOption (name : String) : ValueOption :=
  ⟨name.toList, isCount⟩

def targetOptions : List ValueOption :=
  [pathOption "log", pathOption "repo", countOption "record", pathOption "config",
    countOption "max-files"]

def parseForm : Form :=
  ⟨[pathOption "log", ⟨"min-level".toList, isLevel⟩], ["group".toList]⟩

def errorsForm : Form :=
  ⟨[pathOption "log"], []⟩

def locateForm : Form :=
  ⟨targetOptions, ["show".toList]⟩

def callersForm : Form :=
  ⟨targetOptions ++ [countOption "depth", countOption "context-cap"], ["json".toList]⟩

-- Every command has this flag.
def verbose : Text := "verbose".toList

-- Arguments may ask for help before all that is needed has been given.
inductive Reading where
  | given (g : Given)
  | help
  | misuse

-- Nothing is given twice.
def addFlag (g : Given) (name : Text) : Option Given :=
  if g.flags.elem name then none else some { g with flags := name :: g.flags }

def addValue (f : Form) (g : Given) (name value : Text) : Option Given :=
  if f.values.any (fun o => o.name = name && o.accepts value) && !g.values.any (·.1 = name) then
    some { g with values := (name, value) :: g.values }
  else
    none

def acceptsFlag (f : Form) (name : Text) : Bool :=
  name = verbose || f.flags.elem name

-- Arguments that start with a hyphen are options; a hyphen alone is not.
def isOption : Text → Bool
  | '-' :: _ :: _ => true
  | _             => false

-- The flags behind a single hyphen.
def readShort (g : Given) : Text → Reading
  | []     => .given g
  | c :: t =>
    if c = 'h' then .help
    else if c = 'v' then
      match addFlag g verbose with
      | some g => readShort g t
      | none   => .misuse
    else .misuse

-- An option behind two hyphens, with the value that is attached to it or with what follows it. The
-- result has the arguments that are left.
def readLong (f : Form) (g : Given) (option : Text) (rest : List Text) : Reading × List Text :=
  match splitOnce? '=' option with
  | some (name, value) =>
    match addValue f g name value with
    | some g => (.given g, rest)
    | none   => (.misuse, [])
  | none               =>
    if option = "help".toList then (.help, [])
    else if acceptsFlag f option then
      match addFlag g option with
      | some g => (.given g, rest)
      | none   => (.misuse, [])
    else
      match rest with
      | []            => (.misuse, [])
      | value :: rest =>
        if isOption value then
          (.misuse, [])
        else
          match addValue f g option value with
          | some g => (.given g, rest)
          | none   => (.misuse, [])

theorem readLong_length (f : Form) (g : Given) (option : Text) (rest : List Text) :
    (readLong f g option rest).2.length ≤ rest.length := by
  unfold readLong
  repeat' split
  all_goals simp

-- The options of a command.
def read (f : Form) (g : Given) : List Text → Reading
  | []        => .given g
  | a :: rest =>
    match a with
    | ['-', '-']         => if rest.isEmpty then .given g else .misuse
    | '-' :: '-' :: name =>
      match _h : readLong f g name rest with
      | (.given more, left) => read f more left
      | (r, _)              => r
    | '-' :: c :: t      =>
      match readShort g (c :: t) with
      | .given more => read f more rest
      | r           => r
    | _                  => .misuse
termination_by l => l.length
decreasing_by
  · have := readLong_length f g name rest
    rw [_h] at this
    simp only [List.length_cons] at *
    omega
  · simp

def value? (g : Given) (name : String) : Option Text :=
  g.values.lookup name.toList

def path? (g : Given) (name : String) : Option FilePath :=
  (value? g name).map fun t => ⟨t⟩

def count? (g : Given) (name : String) : Option Nat :=
  (value? g name).bind Decimal.indexOfText?

def level? (g : Given) : Option Level :=
  (value? g "min-level").bind fun t => match Level.ofText t with
    | .ok l    => some l
    | .error _ => none

def flag (g : Given) (name : String) : Bool :=
  g.flags.elem name.toList

def target? (g : Given) : Option Target := do
  return {
    log      := ← path? g "log"
    repo     := ← path? g "repo"
    record   := ← count? g "record"
    config   := path? g "config"
    maxFiles := count? g "max-files"
  }

def defaultDepth : Nat := 2

-- A command by its name: what it accepts, and what it does with that.
structure CommandForm where
  name    : Text
  form    : Form
  command : Given → Option Command

def commands : List CommandForm := [
  ⟨"parse".toList, parseForm, fun g =>
    (path? g "log").map fun log => .parse log (level? g) (flag g "group")⟩,
  ⟨"errors".toList, errorsForm, fun g => (path? g "log").map .errors⟩,
  ⟨"locate".toList, locateForm, fun g => (target? g).map fun t => .locate t (flag g "show")⟩,
  ⟨"callers".toList, callersForm, fun g => (target? g).map fun t =>
    .callers t ((count? g "depth").getD defaultDepth) (count? g "context-cap") (flag g "json")⟩]

def readCommand (c : CommandForm) (args : List Text) : Invocation :=
  match read c.form .empty args with
  | .help    => .help
  | .misuse  => .misuse
  | .given g =>
    match c.command g with
    | some c => .run c
    | none   => .misuse

def helpName : Text := "help".toList

-- Help may be asked for about all commands or one of them.
def readHelp : List Text → Invocation
  | []     => .help
  | [name] => if name = helpName || commands.any (·.name = name) then .help else .misuse
  | _      => .misuse

-- Options may stand before the command.
def readAll (g : Given) : List Text → Invocation
  | []        => .misuse
  | a :: rest =>
    match commands.find? (·.name = a) with
    | some c => readCommand c rest
    | none   =>
      if a = helpName then
        readHelp rest
      else
        match a with
        | '-' :: '-' :: name =>
          match (readLong ⟨[], []⟩ g name []).1 with
          | .given g => readAll g rest
          | .help    => .help
          | .misuse  => .misuse
        | '-' :: c :: t      =>
          match readShort g (c :: t) with
          | .given g => readAll g rest
          | .help    => .help
          | .misuse  => .misuse
        | _                  => .misuse

end Arguments

def Invocation.ofArguments (args : List Text) : Invocation :=
  Arguments.readAll .empty args

end LogOrigin
