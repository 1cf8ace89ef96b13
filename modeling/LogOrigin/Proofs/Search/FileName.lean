import LogOrigin.Proofs.Search.Discovery
import LogOrigin.Proofs.Search.Glob
import LogOrigin.Proofs.Search.Stages
import LogOrigin.Proofs.Search.Stems

-- Which file is picked for its name: one with the first stem that any file has as its name, or else
-- one that mentions the first stem that any file mentions.

namespace LogOrigin

open Text

namespace FileName

-- A file has a stem as its name, up to the case of ASCII letters.
def IsNamed (stem : Text) (file : FilePath) : Prop :=
  ∃ n ∈ file.fileName?, (stem ++ ['.']).map asciiLower <+: n.map asciiLower

-- The name of a file has a stem in it.
def Mentions (stem : Text) (file : FilePath) : Prop :=
  ∃ n ∈ file.fileName?, stem.map asciiLower <:+: n.map asciiLower

instance (stem : Text) (file : FilePath) : Decidable (IsNamed stem file) :=
  inferInstanceAs (Decidable (∃ n ∈ file.fileName?, _))

instance (stem : Text) (file : FilePath) : Decidable (Mentions stem file) :=
  inferInstanceAs (Decidable (∃ n ∈ file.fileName?, _))

-- The first file that fits.
structure IsFirst (p : FilePath → Prop) (files : List FilePath) (file : FilePath) : Prop where
  fits  : p file
  first : ∃ before after, files = before ++ file :: after ∧ ∀ f ∈ before, ¬p f

-- The first file that fits the first stem that any file fits.
inductive Picks (fit : Text → FilePath → Prop) (files : List FilePath) :
    List Text → FilePath → Prop where
  | here {stem : Text} {stems : List Text} {file : FilePath} :
    IsFirst (fit stem) files file → Picks fit files (stem :: stems) file
  | later {stem : Text} {stems : List Text} {file : FilePath} :
    (∀ f ∈ files, ¬fit stem f) → Picks fit files stems file → Picks fit files (stem :: stems) file

-- Files that are named count more than those that only mention a stem, whatever the stem.
inductive Best (stems : List Text) (files : List FilePath) (file : FilePath) : Prop where
  | named : Picks IsNamed files stems file → Best stems files file
  | mentioned : (∀ s ∈ stems, ∀ f ∈ files, ¬IsNamed s f) → Picks Mentions files stems file →
    Best stems files file

variable {s : Text} {c : Char} {stems : List Text} {root f : FilePath} {files : List FilePath}

theorem IsNamed.mentions (h : IsNamed s f) : Mentions s f := by
  obtain ⟨n, hn, hp⟩ := h
  rw [List.map_append] at hp
  exact ⟨n, hn, (List.prefix_append _ _).isInfix.trans hp.isInfix⟩

section Rounds

variable {fit : Text → FilePath → Prop} {pattern : Text → Text}

-- The glob of a stem says which files fit.
def Globs (root : FilePath) (files : List FilePath) (pattern : Text → Text)
    (fit : Text → FilePath → Prop) (stem : Text) : Prop :=
  ∃ g, Glob.ofText? true (pattern stem) = some g ∧ ∀ f ∈ files, fits root g f = true ↔ fit stem f

theorem find?_iff_isFirst {g : Glob} (h : ∀ f ∈ files, fits root g f = true ↔ fit s f) :
    files.find? (fits root g) = some f ↔ IsFirst (fit s) files f := by
  rw [List.find?_eq_some_iff_append]
  constructor
  case mp  =>
    rintro ⟨hf, before, after, rfl, hb⟩
    refine ⟨(h f (by simp)).mp hf, before, after, rfl, fun b hm hp => ?_⟩
    simpa [(h b (by simp [hm])).mpr hp] using hb b hm
  case mpr =>
    rintro ⟨hf, before, after, rfl, hb⟩
    refine ⟨(h f (by simp)).mpr hf, before, after, rfl, fun b hm => ?_⟩
    simpa using fun hp => hb b hm <| (h b (by simp [hm])).mp hp

theorem find?_none_iff {g : Glob} (h : ∀ f ∈ files, fits root g f = true ↔ fit s f) :
    files.find? (fits root g) = none ↔ ∀ f ∈ files, ¬fit s f := by
  rw [List.find?_eq_none]
  exact forall₂_congr fun f hf => not_congr (h f hf)

-- The globs of stems, as far as they can be read.
def globsOf (pattern : Text → Text) (stems : List Text) : List Glob :=
  stems.filterMap fun s => Glob.ofText? true (pattern s)

theorem firstFit?_cons {g : Glob} (hg : Glob.ofText? true (pattern s) = some g) :
    firstFit? root files (globsOf pattern (s :: stems)) =
      (files.find? (fits root g)).or (firstFit? root files (globsOf pattern stems)) := by
  have hl : globsOf pattern (s :: stems) = g :: globsOf pattern stems :=
    List.filterMap_cons_some hg
  rw [hl, firstFit?, List.findSome?_cons]
  cases files.find? (fits root g) <;> rfl

theorem firstFit?_some_iff (h : ∀ s ∈ stems, Globs root files pattern fit s) :
    firstFit? root files (globsOf pattern stems) = some f ↔ Picks fit files stems f := by
  induction stems
  case nil             => exact iff_of_false nofun nofun
  case cons s stems hi =>
    obtain ⟨⟨g, hg, hf⟩, h⟩ := List.forall_mem_cons.mp h
    rw [firstFit?_cons hg, Option.or_eq_some_iff, find?_iff_isFirst hf, find?_none_iff hf, hi h]
    constructor
    case mp  => exact fun h => h.elim .here fun h => .later h.1 h.2
    case mpr =>
      intro h
      cases h
      case here hp     => exact .inl hp
      case later hn hp => exact .inr ⟨hn, hp⟩

theorem firstFit?_none_iff (h : ∀ s ∈ stems, Globs root files pattern fit s) :
    firstFit? root files (globsOf pattern stems) = none ↔ ∀ s ∈ stems, ∀ f ∈ files, ¬fit s f := by
  induction stems
  case nil             => exact iff_of_true rfl nofun
  case cons s stems hi =>
    obtain ⟨⟨g, hg, hf⟩, h⟩ := List.forall_mem_cons.mp h
    rw [firstFit?_cons hg, Option.or_eq_none_iff, find?_none_iff hf, hi h, List.forall_mem_cons]

end Rounds

section Names

-- A path that globs can be matched with: below the root, and with a name at its end.
def IsBelow (root f : FilePath) : Prop :=
  ∃ p n, f.stripBase? root = some p ∧ f.fileName? = some n ∧ IsTail '/' n p.text ∧ '/' ∉ n

theorem isBelow_of_discovered {fs : Files} {settings : SearchSettings} {d : Discovery}
    (hs : fs.tree.Sound) (h : Discovery.ofRoot fs root settings = .ok d) (hf : f ∈ d.files) :
    IsBelow root f := by
  obtain ⟨entries, hr, x, rfl, ⟨names, _, hn, hp⟩, _⟩ := Discovery.ofRoot_inside h hf
  have hroot := (Files.find_ok_iff.mp hr).2.text
  have he := hn.isEntryName (Files.sound_of_find hs hr)
  have hne : names ≠ [] := by
    rintro rfl
    cases hn
  obtain ⟨n, hl⟩ : ∃ n, names.getLast? = some n := Option.isSome_iff_exists.mp (by simpa using hne)
  have hm := List.mem_of_getLast? hl
  have hi := FilePath.isInner_ofEntryNames hne he
  have segments := FilePath.segments_ofEntryNames hne he
  have trimmed : FilePath.IsTrimmed (FilePath.ofEntryNames names).segments := by
    rw [segments]
    exact ⟨fun s h => (he s <| List.mem_of_mem_head? h).isVoid,
      fun s h => (he s <| List.mem_of_getLast? h).isVoid⟩
  have steps : (root.join (FilePath.ofEntryNames names)).steps.getLast? = some (.name n) := by
    obtain ⟨l, rfl⟩ := List.getLast?_eq_some_iff.mp hl
    rw [FilePath.steps_join hi.relative, FilePath.steps, FilePath.steps, segments,
      List.filterMap_append, List.filterMap_cons_some (he n hm).named, List.filterMap_nil,
      ← List.append_assoc, List.getLast?_concat]
  rw [hp, FilePath.below_eq hne he]
  refine ⟨_, n, FilePath.stripBase?_join hroot hi.relative trimmed, ?_, isTail_joinWith hl,
    (he n hm).slash⟩
  rw [FilePath.fileName?, FilePath.components_eq, List.getLast?_append, steps]
  rfl

theorem IsStem.plain (h : IsStem s) : (∀ c ∈ s, Glob.IsPlain c) ∧ '/' ∉ s := by
  have other : ∀ c ∈ "/*?\\[\x7b\x7d,".toList, ¬(c = '_' ∨ isAlnum c = true) := by decide
  refine ⟨fun c hc hm => ?_, fun hm => other '/' (by decide) (h.forall_mem _ hm)⟩
  exact other c (List.mem_cons_of_mem '/' hm) (h.forall_mem c hc)

theorem globs_named (hs : IsStem s) (hf : ∀ f ∈ files, IsBelow root f) :
    Globs root files namedPattern IsNamed s := by
  obtain ⟨g, hg, ht⟩ := Glob.exists_named hs.plain.1 hs.plain.2
  refine ⟨g, hg, fun f hm => ?_⟩
  obtain ⟨p, n, hp, hn, htail, hslash⟩ := hf f hm
  simp [fits, IsNamed, hp, hn, ht n p.text htail hslash]

theorem globs_mentions (hs : IsStem s) (hf : ∀ f ∈ files, IsBelow root f) :
    Globs root files mentionPattern Mentions s := by
  obtain ⟨g, hg, ht⟩ := Glob.exists_mention hs.plain.1 hs.plain.2 hs.ne_nil
  refine ⟨g, hg, fun f hm => ?_⟩
  obtain ⟨p, n, hp, hn, htail, hslash⟩ := hf f hm
  simp [fits, Mentions, hp, hn, ht n p.text htail hslash]

end Names

section Choice

variable (hs : ∀ s ∈ stems, IsStem s) (hf : ∀ f ∈ files, IsBelow root f)

theorem best?_eq (root : FilePath) (stems : List Text) (files : List FilePath) :
    best? root stems files =
      (firstFit? root files (globsOf namedPattern stems)).or
        (firstFit? root files (globsOf mentionPattern stems)) := by
  change [globsOf namedPattern stems, globsOf mentionPattern stems].findSome? _ = _
  rw [List.findSome?_cons]
  cases firstFit? root files (globsOf namedPattern stems)
  case some => rfl
  case none =>
    rw [Option.none_or, List.findSome?_cons]
    cases firstFit? root files (globsOf mentionPattern stems) <;> rfl

include hs hf in
theorem best?_some_iff : best? root stems files = some f ↔ Best stems files f := by
  have named := firstFit?_some_iff (f := f) fun s hm => globs_named (hs s hm) hf
  have unnamed := firstFit?_none_iff fun s hm => globs_named (hs s hm) hf
  have mentions := firstFit?_some_iff (f := f) fun s hm => globs_mentions (hs s hm) hf
  rw [best?_eq, Option.or_eq_some_iff, named, unnamed, mentions]
  constructor
  case mp  => exact fun h => h.elim .named fun h => .mentioned h.1 h.2
  case mpr => exact fun h => h.rec .inl fun hn h => .inr ⟨hn, h⟩

include hs hf in
theorem best?_none_iff : best? root stems files = none ↔
    ∀ s ∈ stems, ∀ f ∈ files, ¬Mentions s f := by
  have unnamed := firstFit?_none_iff fun s hm => globs_named (hs s hm) hf
  have unmentioned := firstFit?_none_iff fun s hm => globs_mentions (hs s hm) hf
  rw [best?_eq, Option.or_eq_none_iff, unnamed, unmentioned]
  exact and_iff_right_of_imp fun h s hs f hf hn => h s hs f hf hn.mentions

end Choice

end FileName

namespace Resolver

open FileName

variable {r : Resolver} {fs fs' : Files} {record : Record} {d : Discovery}

theorem ofFileName_known {files : List FilePath} (h : (r.sources fs).1 = .ok files) :
    (r.ofFileName fs record).1 =
      .ok ((best? r.root (stems r.settings.minSearchLen record) files).map
        fun file => ⟨file, 0, 0, .filename⟩) := by
  rw [ofFileName_fst, h]
  split
  case isTrue hs => rw [hs]; rfl
  case isFalse   => rfl

section Discovered

variable (hs : fs'.tree.Sound) (hd : Discovery.ofRoot fs' r.root r.settings = .ok d)
variable (h : (r.sources fs).1 = .ok d.files)

include hs hd h in
theorem ofFileName_some_iff {o : Origin} : (r.ofFileName fs record).1 = .ok (some o) ↔
    ∃ file, o = ⟨file, 0, 0, .filename⟩ ∧
      Best (stems r.settings.minSearchLen record) d.files file := by
  have best {file} := best?_some_iff (f := file) (areStems r.settings.minSearchLen record).stem
    fun f hf => isBelow_of_discovered hs hd hf
  rw [ofFileName_known h, Except.ok.injEq, Option.map_eq_some_iff]
  refine exists_congr fun file => ?_
  rw [best, and_comm, eq_comm]

include hs hd h in
theorem ofFileName_none_iff : (r.ofFileName fs record).1 = .ok none ↔
    ∀ s ∈ stems r.settings.minSearchLen record, ∀ f ∈ d.files, ¬Mentions s f := by
  have none := best?_none_iff (areStems r.settings.minSearchLen record).stem
    fun f hf => isBelow_of_discovered hs hd hf
  rw [ofFileName_known h, Except.ok.injEq, Option.map_eq_none_iff, none]

end Discovered

-- The stems of a record are distinct and have no sign in them that means something in a glob. Among
-- the files that have been discovered the one is picked that fits them best, whatever is inside it,
-- and none only if no name of a file has one of the stems in it.
theorem ofFileName_by_stem (r : Resolver) (fs : Files) (record : Record) :
    let least := r.settings.minSearchLen
    let stems := stems least record
    let found := (r.ofFileName fs record).1
    AreStems least stems ∧ (∀ t ∈ stems, ∀ c ∈ t, Glob.IsPlain c ∧ c ≠ '/') ∧
    (∀ s, source? record = some s →
      stems = ((candidates s).filter (max least 1 ≤ ·.length)).eraseDups) ∧
    (record.target = none → record.spans.outer.name = Record.rootName → found = .ok none) ∧
    ∀ fs' d, fs'.tree.Sound → Discovery.ofRoot fs' r.root r.settings = .ok d →
      (r.sources fs).1 = .ok d.files →
      (∀ o, found = .ok (some o) ↔
        ∃ file, o = ⟨file, 0, 0, .filename⟩ ∧ Best stems d.files file) ∧
      (found = .ok none ↔ ∀ s ∈ stems, ∀ f ∈ d.files, ¬Mentions s f) := by
  intro least stems found
  have are := areStems least record
  refine ⟨are, fun t ht c hc => ?plain, fun s hs => ?made, fun ht hn => ?nameless, ?picked⟩
  case plain    => exact ⟨(are.stem t ht).plain.1 c hc, fun he => (are.stem t ht).plain.2 (he ▸ hc)⟩
  case made     => exact (stems_eq least record).trans (by rw [hs])
  case nameless =>
    have hs : FileName.stems least record = [] := by simp [FileName.stems, source?, ht, hn]
    exact (ofFileName_fst r fs record).trans (if_pos hs)
  case picked   =>
    exact fun fs' d hs hd h => ⟨fun o => ofFileName_some_iff hs hd h, ofFileName_none_iff hs hd h⟩

-- A file is named like the second stem, and another one mentions both. Without a target nothing is
-- looked for.
theorem ofFileName_by_stem_second :
    let fs := (Files.empty.write [['x'], "Order.rs".toList] .empty).write
      ["shop_order_util.rs".toList] .empty
    let r := Resolver.new ⟨['.']⟩ Settings.default.search
    let record : Record :=
      ⟨[], .info, [], some "shop::order".toList, .single Record.rootName [], [], none, none, none⟩
    let util : FilePath := ⟨"./shop_order_util.rs".toList⟩
    let order : FilePath := ⟨"./x/Order.rs".toList⟩
    let stems := stems r.settings.minSearchLen record
    source? record = some "shop::order".toList ∧ stems = ["shop_order".toList, "order".toList] ∧
    fs.tree.Sound ∧ Discovery.ofRoot fs r.root r.settings = .ok ⟨[util, order], false⟩ ∧
    (r.sources fs).1 = .ok [util, order] ∧
    (r.ofFileName fs record).1 = .ok (some ⟨order, 0, 0, .filename⟩) ∧
    (r.ofFileName fs { record with target := none }).1 = .ok none := by
  intro fs r record util order stems
  have entry {t : Text} (h : FilePath.ofSegment t = some (.name t) ∧ '/' ∉ t ∧ '\x00' ∉ t ∧
      byteSize t ≤ Entry.maxNameBytes) : IsEntryName t :=
    ⟨h.1, h.2.1, h.2.2.1, h.2.2.2⟩
  have sound : fs.tree.Sound := by
    refine (Entry.Sound.empty.changeAt (fun _ _ => .file) ?_).changeAt (fun _ _ => .file) ?_
    · exact List.forall_mem_cons.mpr
        ⟨entry (by decide), List.forall_mem_singleton.mpr <| entry (by decide)⟩
    · exact List.forall_mem_singleton.mpr <| entry (by decide)
  have discovered : Discovery.ofRoot fs r.root r.settings = .ok ⟨[util, order], false⟩ :=
    ok_of_toOption <| by decide +kernel
  have sources : (r.sources fs).1 = .ok [util, order] := ok_of_toOption <| by decide +kernel
  obtain ⟨_, _, made, _, picked⟩ := ofFileName_by_stem r fs record
  obtain ⟨_, _, _, nameless, _⟩ := ofFileName_by_stem r fs { record with target := none }
  have hs : stems = ["shop_order".toList, "order".toList] :=
    (made _ rfl).trans <| by decide +kernel
  have best : FileName.Best stems [util, order] order := by
    have first : IsFirst (IsNamed "order".toList) [util, order] order :=
      ⟨by decide +kernel, [util], [], rfl, by decide +kernel⟩
    exact hs ▸ .named (.later (by decide +kernel) (.here first))
  exact ⟨rfl, hs, sound, discovered, sources,
    ((picked fs _ sound discovered sources).1 _).mpr ⟨order, rfl, best⟩, nameless rfl rfl⟩

-- The target is put into small letters with all letters there are, but the name of a file only with
-- those of ASCII. So a file with the name of the target is not found.
theorem ofFileName_missed :
    let fs := Files.empty.write ["Über.rs".toList] .empty
    let r := Resolver.new ⟨['.']⟩ Settings.default.search
    let record : Record :=
      ⟨[], .info, [], some "Über".toList, .single Record.rootName [], [], none, none, none⟩
    let file : FilePath := ⟨"./Über.rs".toList⟩
    stems r.settings.minSearchLen record = ["über".toList] ∧
    (r.sources fs).1 = .ok [file] ∧ file.fileName? = some "Über.rs".toList ∧
    lowercase "Über.rs".toList = "über".toList ++ ".rs".toList ∧
    (r.ofFileName fs record).1 = .ok none := by
  intro fs r record file
  exact ⟨by decide +kernel, ok_of_toOption <| by decide +kernel, by decide +kernel,
    by decide +kernel, ok_of_toOption <| by decide +kernel⟩

end Resolver

end LogOrigin
