import LogOrigin.Callers.Hydration
import LogOrigin.Callers.Ranking
import LogOrigin.Callers.Symbols
import LogOrigin.Oracle.Basic
import LogOrigin.Search.Resolver
import LogOrigin.Source.Excerpt

-- The expansion of nodes: finding the calls of the function around a place, having them ranked, and
-- keeping the answer.

namespace LogOrigin

-- What an oracle is told about the log around the record.
structure ExpansionContext where
  currentLine  : Text
  staticText   : Option Text
  contextLines : List Text
  deriving DecidableEq

-- The question how likely each of some calls has led to the record.
def ExpansionContext.request (ctx : ExpansionContext) (candidates : List CallCandidate) :
    RankRequest :=
  ⟨ctx.currentLine, ctx.staticText, ctx.contextLines, candidates⟩

-- Whom an expansion asks.
structure Advisers (σ : Type) where
  oracle  : Oracle σ
  symbols : SymbolIndex

-- What an expansion may change besides its node.
structure Surroundings (σ : Type) where
  cache    : CallerCache
  resolver : Resolver
  memory   : σ

-- The texts of the files that have been read, by their paths.
abbrev SourceTexts := List (FilePath × Text)

-- The text of a file. A path with the same components as that of a file that has been read leads to
-- the text of that file.
def SourceTexts.read (texts : SourceTexts) (fs : Files) (file : FilePath) :
    Except FileError (Text × SourceTexts) :=
  match texts.find? (·.1.same file) with
  | some (_, text) => .ok (text, texts)
  | none           => (fs.read file).map fun text => (text, (file, text) :: texts)

namespace Expansion

variable {σ : Type}

def unranked : Text := "unranked".toList

def enclosingOnly : Text := "no references found; enclosing function".toList

-- Callers that are worth keeping because an oracle has ranked them, or others.
inductive Outcome where
  | ranked (children : List CallerNode)
  | unranked (children : List CallerNode)

-- The function around a line, by the index or else by the text.
def enclosing? (a : Advisers σ) (fs : Files) (file : FilePath) (text : Text) (line : Nat) :
    Option Symbol :=
  (a.symbols.enclosing fs file line).or (Symbol.enclosing? text line)

-- All uses of a symbol.
def usages (a : Advisers σ) (fs : Files) (file : FilePath) (s : Symbol) (r : Resolver) :
    Except Failure (List Usage) × Resolver :=
  match a.symbols.references fs file s.startLine s.startColumn with
  | .known l    => (.ok l, r)
  | .named name => ofText name r
  | .unknown    => ofText s.name r
where
  ofText (name : Text) (r : Resolver) : Except Failure (List Usage) × Resolver :=
    match r.sources fs with
    | (.ok files, r) => (.ok (Usage.ofFiles fs name files), r)
    | (.error e, r)  => (.error e, r)

-- The declaration of a function is no call.
def isDeclaration (file : FilePath) (s : Symbol) (u : Usage) : Bool :=
  Ranking.sameFile u.file file && u.line == s.startLine

-- The uses whose files can be read, with the texts of the files.
def readable (fs : Files) : SourceTexts → List Usage → List (Usage × Text)
  | _, []         => []
  | texts, u :: l =>
    match texts.read fs u.file with
    | .ok (text, texts) => (u, text) :: readable fs texts l
    | .error _          => readable fs texts l

-- The call at a place in a text.
def candidate (a : Advisers σ) (fs : Files) (radius : Nat) (u : Usage) (text : Text) :
    CallCandidate where
  file     := u.file
  line     := u.line
  function := ((enclosing? a fs u.file text u.line).map (·.name)).getD []
  snippet  := Excerpt.snippet text u.line radius

def candidates (a : Advisers σ) (fs : Files) (radius : Nat) (texts : SourceTexts) (l : List Usage) :
    List CallCandidate :=
  (readable fs texts l).map fun c => candidate a fs radius c.1 c.2

-- The function itself, where no call of it is known; nothing at its own declaration.
def fallback (i : CallerInfo) (s : Symbol) (text : Text) (radius : Nat) : List CallerNode :=
  if i.line = s.startLine then
    []
  else
    [.ofInfo ⟨i.file, s.startLine, Excerpt.snippet text s.startLine radius, s.name,
      Confidence.fallback, enclosingOnly⟩]

-- Candidates that nobody has ranked.
def inOrder (candidates : List CallCandidate) : List CallerNode :=
  candidates.map fun c => Ranking.nodeOf c Confidence.fallback unranked

-- Has candidates ranked. If that fails they keep their order.
def rank (a : Advisers σ) (ctx : ExpansionContext) (candidates : List CallCandidate) (m : σ) :
    Outcome × σ :=
  match a.oracle.rank (ctx.request candidates) m with
  | (.ok ranked, m) => (.ranked (Ranking.apply candidates ranked), m)
  | (.error _, m)   => (.unranked (inOrder candidates), m)

-- What the search for the calls of a function comes to.
inductive Gathered where
  -- Callers that there is nothing to rank about.
  | callers (children : List CallerNode)
  -- At least one candidate.
  | candidates (l : List CallCandidate)

-- The calls of the function around a node.
def gather (a : Advisers σ) (s : CallerSettings) (fs : Files) (cancelled : Bool) (i : CallerInfo)
    (r : Resolver) : Except Failure Gathered × Resolver :=
  match fs.read i.file with
  | .error e => (.error (.file e), r)
  | .ok text =>
    match enclosing? a fs i.file text i.line with
    | none        => (.ok (.callers []), r)
    | some symbol =>
      match usages a fs i.file symbol r with
      | (.error e, r) => (.error e, r)
      | (.ok l, r)    =>
        if cancelled then
          (.error .cancelled, r)
        else
          match candidates a fs s.snippetRadius [(i.file, text)]
              (l.filter (!isDeclaration i.file symbol ·)) with
          | []         => (.ok (.callers (fallback i symbol text s.snippetRadius)), r)
          | candidates => (.ok (.candidates candidates), r)

-- The callers of the function around a node, ranked if there are candidates.
def compute (a : Advisers σ) (s : CallerSettings) (fs : Files) (ctx : ExpansionContext)
    (cancelled : Bool) (i : CallerInfo) (r : Resolver) (m : σ) :
    Except Failure Outcome × Resolver × σ :=
  match gather a s fs cancelled i r with
  | (.error e, r)            => (.error e, r, m)
  | (.ok (.callers l), r)    => (.ok (.unranked l), r, m)
  | (.ok (.candidates l), r) =>
    let (outcome, m) := rank a ctx l m
    (.ok outcome, r, m)

-- The children for a node, or none if it stays as it is, once its place has been claimed.
def load (a : Advisers σ) (s : CallerSettings) (fs : Files) (ctx : ExpansionContext)
    (cancelled : Bool) (i : CallerInfo) (guard : LoadGuard) (w : Surroundings σ) :
    Option (List CallerNode) × Surroundings σ :=
  let hydrate (c : CallerCache) (l : List CallerNode) :=
    Hydration.hydrate c s.maxHydrateDepth guard.key l
  match compute a s fs ctx cancelled i w.resolver w.memory with
  | (.ok (.ranked l), r, m)    =>
    let (stored, c) := w.cache.complete guard l
    (some (hydrate c stored), ⟨c, r, m⟩)
  | (.ok (.unranked l), r, m)  =>
    let c := w.cache.release guard
    (some (hydrate c l), ⟨c, r, m⟩)
  | (.error .cancelled, r, m)  => (none, ⟨w.cache.release guard, r, m⟩)
  | (.error _, r, m)           => (some [], ⟨w.cache.release guard, r, m⟩)

-- The children for a node that has none yet.
def children (a : Advisers σ) (s : CallerSettings) (fs : Files) (ctx : ExpansionContext)
    (cancelled : Bool) (n : CallerNode) (w : Surroundings σ) :
    Option (List CallerNode) × Surroundings σ :=
  match w.cache.claim n.key with
  | (.ready l, c)     => (some (Hydration.hydrate c s.maxHydrateDepth n.key l), { w with cache := c })
  | (.busy, c)        => (none, { w with cache := c })
  | (.owner guard, c) => load a s fs ctx cancelled n.info guard { w with cache := c }

-- Expands a node. One that is expanded already stays as it is; a node whose expansion is cancelled
-- stays unexpanded, and one whose expansion fails has no children.
def expand (a : Advisers σ) (s : CallerSettings) (fs : Files) (ctx : ExpansionContext)
    (cancelled : Bool) (n : CallerNode) (w : Surroundings σ) : CallerNode × Surroundings σ :=
  if n.isExpanded then
    (n, w)
  else
    let (children, w) := children a s fs ctx cancelled n w
    (.node n.info false children, w)

end Expansion

end LogOrigin
