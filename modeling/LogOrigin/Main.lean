import LogOrigin.Command.Run

-- The program. It takes a picture of the files that a command may look at, and leaves all else to the
-- command.

namespace LogOrigin.Program

-- How deep directories are read.
def maxDepth : Nat := 100

-- What stands at a path, if it can be read. Links inside a directory are not followed.
def readEntry : Nat → String → IO (Option Entry)
  | 0, _         => return none
  | depth + 1, p => do
    try
      let path ← IO.FS.realPath p
      if ← path.isDir then
        let mut entries := []
        for e in ← path.readDir do
          let kind := (← e.path.symlinkMetadata).type
          if kind == .dir || kind == .file then
            if let some d ← readEntry depth (p ++ "/" ++ e.fileName) then
              entries := KeyMap.insert e.fileName.toList d entries
        return some (.dir entries)
      else
        return some (.file (← IO.FS.readBinFile p))
    catch _ => return none

-- Adds what stands at a path to the picture.
def add (fs : Files) (p : FilePath) : IO Files := do
  match ← readEntry maxDepth (String.ofList p.text) with
  | some e => return { fs with tree := fs.tree.changeAt (fun _ => e) (fs.names p) }
  | none   => return fs

def addAll (fs : Files) (l : List FilePath) : IO Files :=
  l.foldlM add fs

-- Adds what stands at a path unless that is a directory.
def addFile (fs : Files) (p : FilePath) : IO Files := do
  let isDir ← try (← IO.FS.realPath (String.ofList p.text)).isDir catch _ => pure false
  if isDir then return fs else add fs p

-- The files in the directories above a path that may hold rules or lead to them.
def ignoreFilesAbove (names : List Text) : List FilePath :=
  ((List.range names.length).map (names.take ·)).flatMap fun dir =>
    [".ignore", ".gitignore", ".git", ".git/info/exclude"].map fun name =>
      (FilePath.ofNames dir).join ⟨name.toList⟩

-- Adds what the rules of a linked work tree come from, by the directory of its state.
def addWorkTree (fs : Files) (state : FilePath) : IO Files := do
  let fs ← addFile fs (WorkTree.commonPath state)
  match WorkTree.common? fs state with
  | some common => addFile fs (WorkTree.excludePath common)
  | none        => return fs

-- The absolute paths that a log mentions.
def mentions (fs : Files) (log : FilePath) : List FilePath :=
  match Command.readLog fs log with
  | .error _ => []
  | .ok s    =>
    let paths := s.records.flatMap fun r =>
      ((Hint.locations r.message).map (·.file)) ++ (r.location.map (·.file)).toList
    paths.filter (·.isAbsolute)

def addTarget (fs : Files) (t : Target) : IO Files := do
  let fs ← addAll fs (t.config.toList ++ [t.log])
  let above := ignoreFilesAbove (fs.names t.repo)
  let fs ← addAll fs (mentions fs t.log)
  let fs ← add fs t.repo
  let fs ← above.foldlM addFile fs
  (WorkTree.states fs.tree).foldlM addWorkTree fs

-- The files that a command may look at.
def filesFor (fs : Files) : Invocation → IO Files
  | .run (.parse log _ _)       => add fs log
  | .run (.errors log)          => add fs log
  | .run (.locate target _)     => addTarget fs target
  | .run (.callers target _ _ _) => addTarget fs target
  | _                           => return fs

-- The directory of the program, with nothing in it yet.
def start : IO Files := do
  let names := (Text.splitOn '/' (← IO.currentDir).toString.toList).filter (!·.isEmpty)
  return { Files.empty.makeDir names with current := names }

-- The time at which the program was started.
def startTime : IO Encoding.Moment := do
  try
    let time := (← (← IO.FS.realPath "/proc/self").metadata).modified
    return ⟨time.sec.toNat, time.nsec.toNat⟩
  catch _ => return ⟨0, 0⟩

end LogOrigin.Program

open LogOrigin in
def main (args : List String) : IO UInt32 := do
  let invocation := Invocation.ofArguments (args.map String.toList)
  let fs ← Program.filesFor (← Program.start) invocation
  let report := invocation.report fs (← Program.startTime)
  IO.print (String.ofList report.output)
  IO.eprint (String.ofList report.errors)
  return UInt32.ofNat report.code
