import LogOrigin.Proofs.Search.Discovery
import LogOrigin.Proofs.Search.Relocation

-- Files that come and go between the searches in a repository. A file that is found is there, unless
-- it was found by its name among the files that are remembered and has been removed since.

namespace LogOrigin

-- The files of a moment, and the resolver of a repository in them.
structure Scene where
  files    : Files
  sound    : files.tree.Sound
  resolver : Resolver

namespace Scene

variable {s : Scene} {steps : List Step}

-- The names of a file or directory on the way to it from the root of the tree.
abbrev Names := List {t : Text // IsEntryName t}

def Names.texts (names : Names) : List Text :=
  names.map (·.val)

theorem Names.isEntryName (names : Names) : ∀ n ∈ names.texts, IsEntryName n := by
  intro n hn
  obtain ⟨x, _, rfl⟩ := List.mem_map.mp hn
  exact x.property

-- What may happen in a scene. A removed file may be replaced by a directory, and be made again.
inductive Step where
  | write (names : Names) (bytes : ByteArray)
  | makeDir (names : Names)
  | delete (names : Names)
  | invalidate
  | sources
  | search (text : Text) (cancelled : Bool)
  | resolve (record : Record) (cancelled : Bool)

def after (s : Scene) : Step → Scene
  | .write names bytes        => {
      files    := s.files.write names.texts bytes
      sound    := s.sound.changeAt (fun _ _ => .file) names.isEntryName
      resolver := s.resolver }
  | .makeDir names            => {
      files    := s.files.makeDir names.texts
      sound    := s.sound.changeAt (fun _ h => h.asDir) names.isEntryName
      resolver := s.resolver }
  | .delete names             => {
      files    := s.files.delete names.texts
      sound    := s.sound.erase names.isEntryName
      resolver := s.resolver }
  | .invalidate               => { s with resolver := s.resolver.invalidate }
  | .sources                  => { s with resolver := (s.resolver.sources s.files).2 }
  | .search text cancelled    =>
    { s with resolver := (s.resolver.search s.files text cancelled).2 }
  | .resolve record cancelled =>
    { s with resolver := (s.resolver.resolve s.files record cancelled).2 }

def run (s : Scene) (steps : List Step) : Scene :=
  steps.foldl after s

theorem run_append (s : Scene) (l l' : List Step) : s.run (l ++ l') = (s.run l).run l' :=
  List.foldl_append ..

-- Only an invalidation changes which files the resolver would take for the sources.
theorem continues_after {a : Step} (ha : a ≠ .invalidate) :
    Resolver.Continues s.files s.resolver (s.after a).resolver := by
  cases a
  case invalidate               => exact absurd rfl ha
  case sources                  => exact Resolver.continues_sources ..
  case search text cancelled    => exact Resolver.continues_search ..
  case resolve record cancelled => exact Resolver.continues_resolve ..
  all_goals exact .refl ..

theorem same_after (s : Scene) (a : Step) :
    Resolver.SameRepository s.resolver (s.after a).resolver := by
  by_cases ha : a = .invalidate
  case pos => exact ha ▸ ⟨rfl, rfl⟩
  case neg => exact (continues_after ha).toSameRepository

theorem same_run (s : Scene) (steps : List Step) :
    Resolver.SameRepository s.resolver (s.run steps).resolver := by
  induction steps generalizing s
  case nil             => exact .refl _
  case cons a steps hi => exact (s.same_after a).trans (hi _)

-- The source files that there are in a scene.
def Discovers (s : Scene) (files : List FilePath) : Prop :=
  ∃ d, Discovery.ofRoot s.files s.resolver.root s.resolver.settings = .ok d ∧ d.files = files

theorem Discovers.isFile {files : List FilePath} {f : FilePath} (h : s.Discovers files)
    (hf : f ∈ files) : s.files.isFile f := by
  obtain ⟨d, hd, rfl⟩ := h
  exact Discovery.isFile_of_mem s.sound hd hf

theorem discovers_of_sources {files : List FilePath} (hn : s.resolver.files = none)
    (h : (s.resolver.sources s.files).1 = .ok files) : s.Discovers files := by
  unfold Resolver.sources at h
  rw [hn] at h
  dsimp only at h
  split at h
  case h_1 d hd => exact ⟨d, hd, Except.ok.inj h⟩
  case h_2      => cases h

-- Files that are remembered at the end, but not from the start, were discovered at a moment since
-- which they have not been forgotten.
theorem exists_discovery {files : List FilePath} (h : (s.run steps).resolver.files = some files) :
    (s.resolver.files = some files ∧ .invalidate ∉ steps) ∨
    ∃ earlier later, steps = earlier ++ later ∧ .invalidate ∉ later ∧
      (s.run earlier).Discovers files := by
  induction steps generalizing s
  case nil             => exact .inl ⟨h, List.not_mem_nil⟩
  case cons a steps hi =>
    rcases hi (s := s.after a) h with ⟨hf, hs⟩ | ⟨earlier, later, rfl, hl, he⟩
    case inr => exact .inr ⟨a :: earlier, later, rfl, hl, he⟩
    case inl =>
      have ha : a ≠ .invalidate := by
        rintro rfl
        cases hf
      have hm : .invalidate ∉ a :: steps := List.not_mem_cons_of_ne_of_not_mem ha.symm hs
      have hd : (s.resolver.sources s.files).1 = .ok files := by
        rw [← (continues_after ha).sources, Resolver.sources, hf]
      cases hr : s.resolver.files
      case none   => exact .inr ⟨[], a :: steps, rfl, hm, discovers_of_sources hr hd⟩
      case some l =>
        rw [Resolver.sources, hr] at hd
        exact .inl ⟨congrArg some (Except.ok.inj hd), hm⟩

-- The sources of a resolver that started without any.
theorem discovery_of_sources {files : List FilePath} (hn : s.resolver.files = none)
    (h : ((s.run steps).resolver.sources (s.run steps).files).1 = .ok files) :
    ∃ earlier later, steps = earlier ++ later ∧ .invalidate ∉ later ∧
      (s.run earlier).Discovers files := by
  cases hr : (s.run steps).resolver.files
  case none   =>
    exact ⟨steps, [], (List.append_nil _).symm, List.not_mem_nil, discovers_of_sources hr h⟩
  case some l =>
    rw [Resolver.sources, hr] at h
    obtain rfl := Except.ok.inj h
    rcases exists_discovery hr with ⟨hf, _⟩ | he
    case inl => cases hn.symm.trans hf
    case inr => exact he

-- A file that is there no more was removed by one of the steps.
theorem exists_removal {f : FilePath} (hs : s.files.isFile f) (h : ¬(s.run steps).files.isFile f) :
    ∃ earlier a later, steps = earlier ++ a :: later ∧ (s.run earlier).files.isFile f ∧
      ¬(s.run (earlier ++ [a])).files.isFile f := by
  induction steps generalizing s
  case nil             => exact absurd hs h
  case cons a steps hi =>
    by_cases ha : (s.after a).files.isFile f
    case neg => exact ⟨[], a, steps, rfl, hs, ha⟩
    case pos =>
      obtain ⟨earlier, b, later, rfl, hb, hl⟩ := hi ha h
      exact ⟨a :: earlier, b, later, rfl, hb, hl⟩

variable {record : Record} {cancelled : Bool} {o : Origin}

theorem isFile_of_stage {r : Resolver} {fs : Files}
    (h : (r.resolve fs record cancelled).1 = .ok (.found o)) :
    fs.isFile o.file ∨ o.stage = .filename ∧
      ∃ files, (r.sources fs).1 = .ok files ∧ o.file ∈ files := by
  rcases Resolver.resolve_found h with h | h | h | ⟨files, file, hs, hf, rfl⟩
  case inl         =>
    obtain ⟨_, _, _, hf, rfl⟩ := Resolver.ofCache?_found h
    exact .inl (Hint.isFile_of_translate? hf)
  case inr.inl     =>
    obtain ⟨_, _, _, hf, rfl⟩ := Resolver.ofHints?_found h
    exact .inl (Hint.isFile_of_translate? hf)
  case inr.inr.inl =>
    obtain ⟨_, _, c, _, _, ho, hc⟩ := Resolver.firstMatch_found Resolver.trim_needle h
    obtain ⟨_, _, hr, _, _⟩ := hc.line
    rw [ho]
    exact .inl (Files.isFile_of_read hr)
  case inr.inr.inr => exact .inr ⟨rfl, files, hs, hf⟩

-- All stages but the last look at the files of the moment. The last one may find a file that was
-- removed since the files were discovered, if they have not been forgotten since.
theorem found_or_removed (hn : s.resolver.files = none)
    (h : ((s.run steps).resolver.resolve (s.run steps).files record cancelled).1 =
      .ok (.found o)) :
    (s.run steps).files.isFile o.file ∨
    o.stage = .filename ∧ ∃ earlier a later, steps = earlier ++ a :: later ∧
      .invalidate ∉ a :: later ∧ (s.run earlier).files.isFile o.file ∧
      ¬(s.run (earlier ++ [a])).files.isFile o.file := by
  by_cases hf : (s.run steps).files.isFile o.file
  case pos => exact .inl hf
  case neg =>
    rcases isFile_of_stage h with ho | ⟨ho, files, hs, hm⟩
    case inl => exact absurd ho hf
    case inr =>
      obtain ⟨earlier, later, rfl, hi, hd⟩ := discovery_of_sources hn hs
      rw [run_append] at hf
      obtain ⟨kept, a, rest, rfl, hk, hr⟩ := exists_removal (hd.isFile hm) hf
      refine .inr ⟨ho, earlier ++ kept, a, rest, ?_, fun h => hi ?_, ?_, ?_⟩
      · rw [List.append_assoc]
      · exact List.mem_append_right _ h
      · rwa [run_append]
      · rwa [List.append_assoc, run_append]

-- A search has discovered the file, which is then replaced by a directory of the same name.
theorem found_or_removed_directory :
    let a : {t : Text // IsEntryName t} :=
      ⟨"a.rs".toList, by decide, by decide, by decide, by decide⟩
    let settings : SearchSettings := { Settings.default.search with minSearchLen := 1 }
    let s : Scene := ⟨.empty, .empty, .new ⟨['.']⟩ settings⟩
    let record : Record :=
      ⟨[], .info, [], some ['a'], .single Record.rootName [], [], none, none, none⟩
    let steps : List Step :=
      [.write [a] .empty, .search ['b'] false, .makeDir [a], .resolve record true]
    let o : Origin := ⟨⟨"./a.rs".toList⟩, 0, 0, .filename⟩
    ((s.run steps).resolver.resolve (s.run steps).files record false).1 = .ok (.found o) ∧
    ∃ earlier a later, steps = earlier ++ a :: later ∧ .invalidate ∉ a :: later ∧
      (s.run earlier).files.isFile o.file ∧ ¬(s.run (earlier ++ [a])).files.isFile o.file := by
  intro a settings s record steps o
  have ho : ((s.run steps).resolver.resolve (s.run steps).files record false).1 =
      .ok (.found o) := ok_of_toOption <| by decide +kernel
  have hf : ¬(s.run steps).files.isFile o.file := by decide +kernel
  have hn : s.resolver.files = none := rfl
  exact ⟨ho, ((found_or_removed hn ho).resolve_left hf).2⟩

-- A file is discovered and deleted, and the record is said to come from it nevertheless.
theorem found_deleted :
    let a : {t : Text // IsEntryName t} :=
      ⟨"a.rs".toList, by decide, by decide, by decide, by decide⟩
    let settings : SearchSettings := { Settings.default.search with minSearchLen := 1 }
    let s : Scene := ⟨.empty, .empty, .new ⟨['.']⟩ settings⟩
    let record : Record :=
      ⟨[], .info, [], some ['a'], .single Record.rootName [], [], none, none, none⟩
    let s := s.run [.write [a] .empty, .sources, .delete [a]]
    let o : Origin := ⟨⟨"./a.rs".toList⟩, 0, 0, .filename⟩
    (s.resolver.resolve s.files record false).1 = .ok (.found o) ∧
    s.files.isFile o.file = false := by
  intro a settings s record s' o
  exact ⟨ok_of_toOption <| by decide +kernel, by decide +kernel⟩

end Scene

end LogOrigin
