import LogOrigin.Proofs.Callers.Convergence
import Mathlib.Data.List.Perm.Basic

-- The call sites of a function are what the nodes below it are made of. None of them is lost on the
-- way and none is invented, whatever the oracle says about them.

namespace LogOrigin

-- The place that a candidate or a node of a tree stands for.
def CallCandidate.place (c : CallCandidate) : Usage :=
  ⟨c.file, c.line⟩

def CallerInfo.place (i : CallerInfo) : Usage :=
  ⟨i.file, i.line⟩

-- A node without what an oracle has said about it.
def CallerInfo.candidate (i : CallerInfo) : CallCandidate :=
  ⟨i.file, i.line, i.function, i.snippet⟩

@[simp]
theorem CallerInfo.place_candidate (i : CallerInfo) : i.candidate.place = i.place :=
  rfl

namespace Ranking

theorem extract?_perm {α : Type} {p : α → Bool} {a : α} {l rest : List α}
    (h : extract? p l = some (a, rest)) : l.Perm (a :: rest) := by
  induction l generalizing rest
  case nil         => cases h
  case cons b l hi =>
    unfold extract? at h
    split at h
    case isTrue  => cases h; rfl
    case isFalse =>
      obtain ⟨⟨_, rest⟩, hr, he⟩ := Option.map_eq_some_iff.mp h
      cases he
      exact (hi hr).cons b |>.trans <| .swap ..

theorem claim?_perm {r : RankedCall} {c : CallCandidate} {l rest : List CallCandidate}
    (h : claim? r l = some (c, rest)) : l.Perm (c :: rest) := by
  rcases Option.or_eq_some_iff.mp h with h | ⟨_, h⟩
  all_goals exact extract?_perm h

-- Claimed or left, each candidate is there once.
theorem assign_perm (ranked : List RankedCall) (l : List CallCandidate) :
    ((assign ranked l).1.map (·.candidate) ++ (assign ranked l).2).Perm l := by
  induction ranked generalizing l
  case nil            => rfl
  case cons r rank hi =>
    unfold assign
    split
    case h_1 => exact hi l
    case h_2 c rest hc => exact (hi rest).cons c |>.trans (claim?_perm hc).symm

theorem apply_perm (candidates : List CallCandidate) (ranked : List RankedCall) :
    ((apply candidates ranked).map (·.info.candidate)).Perm candidates := by
  have rest (l : List CallCandidate) :
      (l.map fun c => nodeOf c .zero notRanked).map (·.info.candidate) = l := by
    rw [List.map_map]
    exact List.map_id l
  rw [apply, List.map_append, rest, List.map_map]
  exact ((List.mergeSort_perm ..).map _).append_right _ |>.trans <| assign_perm ranked candidates

end Ranking

namespace Expansion

variable {σ : Type} {a : Advisers σ} {s : CallerSettings} {fs : Files} {ctx : ExpansionContext}
variable {n : CallerNode} {w : Surroundings σ} {i : CallerInfo} {r : Resolver}
variable {symbol : Symbol} {l : List Usage} {e : Failure}

-- A place in a file that can be read, inside of a function that the index or else the text knows.
def Inside (a : Advisers σ) (fs : Files) (i : CallerInfo) (symbol : Symbol) : Prop :=
  ∃ text, fs.read i.file = .ok text ∧
    (a.symbols.enclosing fs i.file i.line).or (Symbol.enclosing? text i.line) = some symbol

-- The uses of the function around a place: those that the index knows, or else those in the texts
-- of the source files. There is nothing to be found if the place has no function, or if neither the
-- index nor any source files are at hand.
inductive Finds (a : Advisers σ) (fs : Files) (i : CallerInfo) (r : Resolver) :
    Option (Symbol × List Usage) → Prop where
  | unreadable {e : FileError} :
    fs.read i.file = .error e →
    Finds a fs i r none
  | outside {text : Text} :
    fs.read i.file = .ok text →
    a.symbols.enclosing fs i.file i.line = none →
    Symbol.enclosing? text i.line = none →
    Finds a fs i r none
  | undiscovered {symbol : Symbol} {e : Failure} :
    Inside a fs i symbol →
    (∀ l, a.symbols.references fs i.file symbol.startLine symbol.startColumn ≠ .known l) →
    (r.sources fs).1 = .error e →
    Finds a fs i r none
  | known {symbol : Symbol} {l : List Usage} :
    Inside a fs i symbol →
    a.symbols.references fs i.file symbol.startLine symbol.startColumn = .known l →
    Finds a fs i r (some (symbol, l))
  | named {symbol : Symbol} {name : Text} {files : List FilePath} :
    Inside a fs i symbol →
    a.symbols.references fs i.file symbol.startLine symbol.startColumn = .named name →
    (r.sources fs).1 = .ok files →
    Finds a fs i r (some (symbol, Usage.ofFiles fs name files))
  | unknown {symbol : Symbol} {files : List FilePath} :
    Inside a fs i symbol →
    a.symbols.references fs i.file symbol.startLine symbol.startColumn = .unknown →
    (r.sources fs).1 = .ok files →
    Finds a fs i r (some (symbol, Usage.ofFiles fs symbol.name files))

-- A file is at hand if it can be read, or if one of those before it can that have the same path, but
-- for its spelling.
def isAtHand (fs : Files) (before : List FilePath) (file : FilePath) : Bool :=
  (file :: before).any fun p => p.same file && (fs.read p).isOk

-- The uses of a function that are calls: not its own declaration, and in files that are at hand. The
-- file of the function comes first.
def sites (fs : Files) (file : FilePath) (symbol : Symbol) (l : List Usage) : List Usage :=
  go [file] (l.filter fun u => !(Ranking.sameFile u.file file && u.line == symbol.startLine))
where
  go (before : List FilePath) : List Usage → List Usage
    | []     => []
    | u :: l => (if isAtHand fs before u.file then [u] else []) ++ go (u.file :: before) l

-- A use in a file that cannot be read by its path, but by another spelling of it.
def Respelled (fs : Files) (file : FilePath) (l : List Usage) : Prop :=
  ∃ u ∈ l, (fs.read u.file).isOk = false ∧
    ∃ p ∈ file :: l.map (·.file), p.same u.file = true ∧ (fs.read p).isOk = true

theorem isAtHand_iff {before : List FilePath} {file : FilePath} : isAtHand fs before file = true ↔
    (fs.read file).isOk = true ∨
      ∃ p ∈ before, p.same file = true ∧ (fs.read p).isOk = true := by
  simp [isAtHand, FilePath.same_refl]

theorem sites_go_eq {before : List FilePath}
    (h : ∀ u ∈ l, ∀ p ∈ before ++ l.map (·.file), p.same u.file = true →
      (fs.read p).isOk = true → (fs.read u.file).isOk = true) :
    sites.go fs before l = l.filter fun u => (fs.read u.file).isOk := by
  induction l generalizing before
  case nil         => rfl
  case cons u l hi =>
    have hu : isAtHand fs before u.file = (fs.read u.file).isOk := by
      refine Bool.eq_iff_iff.mpr <| isAtHand_iff.trans <| or_iff_left_of_imp ?_
      rintro ⟨p, hp, hs, hr⟩
      exact h u (List.mem_cons_self ..) p (List.mem_append_left _ hp) hs hr
    have hl : sites.go fs (u.file :: before) l = l.filter fun u => (fs.read u.file).isOk := by
      refine hi fun v hv p hp => h v (List.mem_cons_of_mem _ hv) p ?_
      simpa [or_left_comm] using hp
    rw [sites.go, hl, hu, List.filter_cons]
    split <;> rfl

-- Where the paths of files are written in one way, the calls are in those that can be read.
theorem sites_eq_filter {file : FilePath} (h : ¬Respelled fs file l) : sites fs file symbol l =
    l.filter fun u => !(Ranking.sameFile u.file file && u.line == symbol.startLine) &&
      (fs.read u.file).isOk := by
  have hg {k : List Usage} (hk : k ⊆ l) :
      sites.go fs [file] k = k.filter fun u => (fs.read u.file).isOk := by
    refine sites_go_eq fun u hu p hp hs hr => ?_
    by_contra hn
    refine h ⟨u, hk hu, by simpa using hn, p, ?_, hs, hr⟩
    rcases List.mem_cons.mp hp with rfl | hp
    case inl => exact List.mem_cons_self ..
    case inr => exact List.mem_cons_of_mem _ (List.map_subset _ hk hp)
  rw [sites, hg (List.filter_subset_self _), List.filter_filter]
  simp only [Bool.and_comm]

-- The texts of those among some files that can be read.
def Holds (fs : Files) (before : List FilePath) (texts : SourceTexts) : Prop :=
  ∀ file, texts.any (·.1.same file) = before.any fun p => p.same file && (fs.read p).isOk

-- Reading one more file succeeds if it is at hand, and then its text is held, too.
theorem Holds.read {before : List FilePath} {texts : SourceTexts} (h : Holds fs before texts)
    (file : FilePath) :
    (isAtHand fs before file = true ∧ ∃ text texts', texts.read fs file = .ok (text, texts') ∧
      Holds fs (file :: before) texts') ∨
    (isAtHand fs before file = false ∧ ∃ e, texts.read fs file = .error e ∧
      Holds fs (file :: before) texts) := by
  have hh := h file
  unfold SourceTexts.read isAtHand
  rw [List.any_cons, ← hh, FilePath.same_refl, Bool.true_and]
  cases ht : texts.find? (·.1.same file)
  case some e =>
    have he : texts.any (·.1.same file) = true := by
      rw [← List.isSome_find?, ht, Option.isSome_some]
    refine .inl ⟨by rw [he, Bool.or_true], e.2, texts, rfl, fun f => ?_⟩
    rw [List.any_cons, ← h f]
    cases hf : file.same f
    case false => rfl
    case true  => simp only [← FilePath.same_congr hf, he, Bool.or_true]
  case none =>
    have he : texts.any (·.1.same file) = false := by
      rw [← List.isSome_find?, ht, Option.isSome_none]
    cases hr : fs.read file
    case error e =>
      refine .inr ⟨by simp [he, Except.isOk, Except.toBool], e, rfl, fun f => ?_⟩
      simp [h f, hr, Except.isOk, Except.toBool]
    case ok t    =>
      refine .inl ⟨by simp [Except.isOk, Except.toBool], t, _, rfl, fun f => ?_⟩
      simp [h f, hr, Except.isOk, Except.toBool]

-- What has been read so far decides which uses are kept.
theorem uses_readable {before : List FilePath} {texts : SourceTexts} (h : Holds fs before texts) :
    (readable fs texts l).map (·.1) = sites.go fs before l := by
  induction l generalizing before texts
  case nil         => rfl
  case cons u l hi =>
    rcases h.read u.file with ⟨hh, _, _, hr, hn⟩ | ⟨hh, _, hr, hn⟩
    all_goals
      rw [readable, hr, sites.go, hh, ← hi hn]
      rfl

theorem places_candidates {text : Text} {file : FilePath} (a : Advisers σ) (radius : Nat)
    (symbol : Symbol) (l : List Usage) (h : fs.read file = .ok text) :
    (candidates a fs radius [(file, text)] (l.filter (!isDeclaration file symbol ·))).map (·.place) =
      sites fs file symbol l := by
  have hh : Holds fs [file] [(file, text)] := fun f => by simp [h, Except.isOk, Except.toBool]
  rw [candidates, sites, ← uses_readable hh, List.map_map]
  rfl

-- A function without known calls stands in for them, except at its own declaration.
theorem places_fallback (i : CallerInfo) (symbol : Symbol) (text : Text) (radius : Nat) :
    (fallback i symbol text radius).map (·.info.place) =
      if i.line = symbol.startLine then [] else [⟨i.file, symbol.startLine⟩] := by
  unfold fallback
  split <;> rfl

-- What the search for calls comes to, by the uses that have been found.
inductive Offers (fs : Files) (i : CallerInfo) (symbol : Symbol) (l : List Usage) :
    Gathered → Prop where
  | callers {kids : List CallerNode} :
    sites fs i.file symbol l = [] →
    kids.map (·.info.place) =
      (if i.line = symbol.startLine then [] else [⟨i.file, symbol.startLine⟩]) →
    Offers fs i symbol l (.callers kids)
  | candidates {candidates : List CallCandidate} :
    sites fs i.file symbol l ≠ [] →
    candidates.map (·.place) = sites fs i.file symbol l →
    Offers fs i symbol l (.candidates candidates)

theorem gather_inside (s : CallerSettings) (h : Inside a fs i symbol) :
    match (usages a fs i.file symbol r).1 with
    | .error e => (gather a s fs false i r).1 = .error e
    | .ok l    => ∃ found, (gather a s fs false i r).1 = .ok found ∧
        Offers fs i symbol l found := by
  have ⟨text, ht, hs⟩ := h
  have hs : enclosing? a fs i.file text i.line = some symbol := hs
  unfold gather
  simp only [ht, hs]
  obtain ⟨found, r'⟩ := usages a fs i.file symbol r
  cases found
  case error => rfl
  case ok l  =>
    have hp := places_candidates a s.snippetRadius symbol l ht
    simp only [Bool.false_eq_true, if_false]
    split
    case h_1 hc =>
      rw [hc] at hp
      exact ⟨_, rfl, .callers hp.symm <| places_fallback ..⟩
    case h_2 hc =>
      exact ⟨_, rfl, .candidates (hp ▸ mt List.map_eq_nil_iff.mp hc) hp⟩

theorem ofText_fst (name : Text) :
    (usages.ofText fs name r).1 = (r.sources fs).1.map (Usage.ofFiles fs name) := by
  unfold usages.ofText
  split <;> simp_all [Except.map]

theorem exists_finds (a : Advisers σ) (fs : Files) (i : CallerInfo) (r : Resolver) :
    ∃ x, Finds a fs i r x := by
  cases ht : fs.read i.file
  case error => exact ⟨_, .unreadable ht⟩
  case ok text =>
    cases hs : (a.symbols.enclosing fs i.file i.line).or (Symbol.enclosing? text i.line)
    case none =>
      have ⟨hs, he⟩ := Option.or_eq_none_iff.mp hs
      exact ⟨_, .outside ht hs he⟩
    case some symbol =>
      have hi : Inside a fs i symbol := ⟨text, ht, hs⟩
      cases hr : a.symbols.references fs i.file symbol.startLine symbol.startColumn
      case known => exact ⟨_, .known hi hr⟩
      all_goals
        cases hf : (r.sources fs).1
        case error => exact ⟨_, .undiscovered hi (by simp [hr]) hf⟩
      case unknown.ok => exact ⟨_, .unknown hi hr hf⟩
      case named.ok   => exact ⟨_, .named hi hr hf⟩

theorem gather_nothing (s : CallerSettings) (h : Finds a fs i r none) :
    (∃ e, (gather a s fs false i r).1 = .error e) ∨
      (gather a s fs false i r).1 = .ok (.callers []) := by
  cases h
  case unreadable e h =>
    exact .inl ⟨.file e, by simp only [gather, h]⟩
  case outside ht hs he =>
    refine .inr ?_
    simp only [gather, ht, enclosing?, hs, he, Option.or_none]
  case undiscovered symbol e hi hr hf =>
    have hg := gather_inside (r := r) s hi
    have hu : (usages a fs i.file symbol r).1 = .error e := by
      unfold usages
      split
      case h_1 hl => exact absurd hl <| hr _
      all_goals rw [ofText_fst, hf]; rfl
    rw [hu] at hg
    exact .inl ⟨e, hg⟩

theorem gather_found (s : CallerSettings) (h : Finds a fs i r (some (symbol, l))) :
    ∃ found, (gather a s fs false i r).1 = .ok found ∧ Offers fs i symbol l found := by
  have hu : Inside a fs i symbol ∧ (usages a fs i.file symbol r).1 = .ok l := by
    unfold usages
    cases h
    case known hi hr      => exact ⟨hi, by rw [hr]⟩
    case named hf hi hr   => exact ⟨hi, by rw [hr, ofText_fst, hf]; rfl⟩
    case unknown hf hi hr => exact ⟨hi, by rw [hr, ofText_fst, hf]; rfl⟩
  have hg := gather_inside (r := r) s hu.1
  rwa [hu.2] at hg

-- What becomes of the call sites that have been found for a node.
structure Conserves (ctx : ExpansionContext) (i : CallerInfo) (symbol : Symbol)
    (found : List Usage) (kids : List CallerNode) (log : List Oracle.Call) : Prop where
  kept  : found ≠ [] → (kids.map (·.info.place)).Perm found
  asked : found ≠ [] → ∃ candidates, candidates.map (·.place) = found ∧
    (kids.map (·.info.candidate)).Perm candidates ∧ log = [.rank (ctx.request candidates)]
  alone : found = [] → log = [] ∧ kids.map (·.info.place) =
    if i.line = symbol.startLine then [] else [⟨i.file, symbol.startLine⟩]

theorem map_info_congr {α : Type} {l m : List CallerNode} (f : CallerInfo → α)
    (h : l.map (·.info) = m.map (·.info)) :
    (l.map fun n => f n.info) = m.map fun n => f n.info := by
  simpa [Function.comp_def] using congrArg (List.map f) h

theorem candidates_inOrder (candidates : List CallCandidate) :
    (inOrder candidates).map (·.info.candidate) = candidates := by
  rw [inOrder, List.map_map]
  exact List.map_id candidates

theorem candidates_stored (candidates : List CallCandidate) (ranked : List RankedCall) :
    ((stored candidates ranked).map (·.info.candidate)).Perm candidates := by
  rw [stored, List.map_map]
  exact Ranking.apply_perm candidates ranked

namespace Ends

variable {children : Option (List CallerNode)} {w' : Surroundings σ} {log : List Oracle.Call}

-- How the expansion of a node can end at a place that nobody has claimed, if it is not called off.
theorem first (x : Ends a s fs ctx false n w children w' log) (hk : w.cache.slot? n.key = none) :
    (∃ e, (gather a s fs false n.info w.resolver).1 = .error e ∧ children = some [] ∧ log = []) ∨
    (∃ l kids, (gather a s fs false n.info w.resolver).1 = .ok (.callers l) ∧
      children = some kids ∧ kids.map (·.info) = l.map (·.info) ∧ log = []) ∨
    (∃ l kids, (gather a s fs false n.info w.resolver).1 = .ok (.candidates l) ∧
      children = some kids ∧ (kids.map (·.info.candidate)).Perm l ∧
      log = [.rank (ctx.request l)]) := by
  cases x
  case known hl           => simp [CallerCache.get?_absent hk] at hl
  case busy hl            => simp [hk] at hl
  case calledOff hg       => cases gather_cancelled hg
  case failed hg _        => exact .inl ⟨_, congrArg Prod.fst hg, rfl, rfl⟩
  case callers hg         =>
    exact .inr <| .inl ⟨_, _, congrArg Prod.fst hg, rfl, Hydration.infos_hydrate .., rfl⟩
  case unranked l _ _ _ _ hg _ =>
    refine .inr <| .inr ⟨l, _, congrArg Prod.fst hg, rfl, ?_, rfl⟩
    rw [map_info_congr (·.candidate) (Hydration.infos_hydrate ..), candidates_inOrder]
  case ranked l _ _ _ _ hg _   =>
    refine .inr <| .inr ⟨l, _, congrArg Prod.fst hg, rfl, ?_, rfl⟩
    rw [map_info_congr (·.candidate) (Hydration.infos_hydrate ..)]
    exact candidates_stored ..

theorem nothing (x : Ends a s fs ctx false n w children w' log) (hk : w.cache.slot? n.key = none)
    (h : Finds a fs n.info w.resolver none) : children = some [] ∧ log = [] := by
  have hg := gather_nothing s h
  rcases x.first hk with ⟨_, _, hc, hl⟩ | ⟨l, kids, he, hc, hi, hl⟩ | ⟨_, _, he, _⟩
  case inl     => exact ⟨hc, hl⟩
  case inr.inl =>
    obtain rfl : l = [] := by simpa [he] using hg
    obtain rfl : kids = [] := by simpa using hi
    exact ⟨hc, hl⟩
  case inr.inr => simp [he] at hg

theorem conserves (x : Ends a s fs ctx false n w children w' log)
    (hk : w.cache.slot? n.key = none) (h : Finds a fs n.info w.resolver (some (symbol, l))) :
    ∃ kids, children = some kids ∧
      Conserves ctx n.info symbol (sites fs n.info.file symbol l) kids log := by
  have ⟨found, hg, ho⟩ := gather_found s h
  rcases x.first hk with ⟨_, he, _⟩ | ⟨l, kids, he, hc, hi, rfl⟩ | ⟨l, kids, he, hc, hp, rfl⟩
  case inl     => simp [he] at hg
  case inr.inl =>
    refine ⟨kids, hc, ?_⟩
    cases he.symm.trans hg
    cases ho
    case callers hs hp =>
      have hp := (map_info_congr (·.place) hi).trans hp
      exact ⟨absurd hs, absurd hs, fun _ => ⟨rfl, hp⟩⟩
  case inr.inr =>
    refine ⟨kids, hc, ?_⟩
    cases he.symm.trans hg
    cases ho
    case candidates hs hp' =>
      have hk : (kids.map (·.info.place)).Perm (l.map (·.place)) := by
        simpa [Function.comp_def] using hp.map (·.place)
      exact ⟨fun _ => hp' ▸ hk, fun _ => ⟨l, hp', hp, rfl⟩, fun h => absurd h hs⟩

end Ends

-- The children of a node that is expanded for the first time are the call sites of its function,
-- each one as often as it has been found, whatever the oracle answers. The oracle is asked if there
-- are any, once and about all of them in their order. Without call sites there is at most the
-- function itself, and without a function or any way to look for its uses there is nothing. A site
-- in a file that cannot be read counts only if another spelling of the path has led to the file.
theorem expand_conserves_sites (a : Advisers σ) (s : CallerSettings) (fs : Files)
    (ctx : ExpansionContext) (hn : n.isExpanded = false) (hk : w.cache.slot? n.key = none) :
    let children := (expand a s fs ctx false n w).1.children
    let asked := calls a s fs ctx false n w
    (∃ x, Finds a fs n.info w.resolver x) ∧
    (Finds a fs n.info w.resolver none → children = some [] ∧ asked = []) ∧
    (∀ symbol l, Finds a fs n.info w.resolver (some (symbol, l)) →
      (∃ kids, children = some kids ∧
        Conserves ctx n.info symbol (sites fs n.info.file symbol l) kids asked) ∧
      (¬Respelled fs n.info.file l → sites fs n.info.file symbol l =
        l.filter fun u => !(Ranking.sameFile u.file n.info.file && u.line == symbol.startLine) &&
          (fs.read u.file).isOk)) := by
  have ⟨children, w', he, x⟩ := expand_ends a s fs ctx false w hn
  rw [he]
  exact ⟨exists_finds .., x.nothing hk, fun _ _ h => ⟨x.conserves hk h, sites_eq_filter⟩⟩

-- A path with a slash at its end leads to no file, but it is another spelling of the path of the
-- node, which has been read. So the use at this path is ranked, as if its file could be read, and
-- the function does not stand in for it.
theorem expand_keeps_respelled :
    let u : Usage := ⟨⟨['a', '/']⟩, 7⟩
    let symbol : Symbol := ⟨['f'], 3, 0, 4⟩
    let oracle : Oracle Unit := ⟨fun _ m => (.ok .empty, m), fun _ m => (.ok [], m)⟩
    let a : Advisers Unit := ⟨oracle, fun _ _ _ => some symbol, fun _ _ _ _ => .known [u]⟩
    let fs : Files := ⟨.dir [(['a'], .file .empty)], []⟩
    let ctx : ExpansionContext := ⟨[], none, []⟩
    let n : CallerNode := .root ⟨['a']⟩ 5
    let w : Surroundings Unit := ⟨.empty, .new ⟨['.']⟩ Settings.default.search, ()⟩
    n.isExpanded = false ∧ w.cache.slot? n.key = none ∧
      (fs.read n.info.file).isOk = true ∧ (fs.read u.file).isOk = false ∧
      (expand a ⟨1, 3, 0⟩ fs ctx false n w).1.children.map (·.map (·.info.place)) = some [u] ∧
      calls a ⟨1, 3, 0⟩ fs ctx false n w = [.rank (ctx.request [⟨u.file, 7, ['f'], []⟩])] :=
  ⟨rfl, rfl, rfl, rfl, by decide +kernel, by decide +kernel⟩

-- A call that is known twice, next to the declaration and to a file that is gone, with an oracle
-- that knows of one of the two and makes up another one.
theorem expand_conserves_sites_repeated :
    let u : Usage := ⟨⟨['a']⟩, 7⟩
    let symbol : Symbol := ⟨['f'], 3, 0, 4⟩
    let oracle : Oracle Unit :=
      ⟨fun _ m => (.ok .empty, m),
        fun _ m => (.ok [⟨⟨['b']⟩, 9, [], .one, []⟩, ⟨⟨['a']⟩, 7, [], .half, []⟩], m)⟩
    let found := [u, ⟨⟨['a']⟩, 3⟩, ⟨⟨['b']⟩, 7⟩, u]
    let a : Advisers Unit := ⟨oracle, fun _ _ _ => some symbol, fun _ _ _ _ => .known found⟩
    let fs : Files := ⟨.dir [(['a'], .file .empty)], []⟩
    let ctx : ExpansionContext := ⟨[], none, []⟩
    let n : CallerNode := .root ⟨['a']⟩ 5
    let w : Surroundings Unit := ⟨.empty, .new ⟨['.']⟩ Settings.default.search, ()⟩
    n.isExpanded = false ∧ w.cache.slot? n.key = none ∧
      ∃ kids, (expand a ⟨1, 3, 0⟩ fs ctx false n w).1.children = some kids ∧
        Conserves ctx n.info symbol [u, u] kids (calls a ⟨1, 3, 0⟩ fs ctx false n w) := by
  intro u symbol oracle found a fs ctx n w
  have ⟨_, _, conserves⟩ := expand_conserves_sites (n := n) (w := w) a ⟨1, 3, 0⟩ fs ctx rfl rfl
  exact ⟨rfl, rfl, (conserves symbol found <| .known ⟨_, rfl, rfl⟩ rfl).1⟩

end Expansion

end LogOrigin
