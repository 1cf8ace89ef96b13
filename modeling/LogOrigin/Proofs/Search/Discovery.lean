import LogOrigin.Search.Discovery
import LogOrigin.Proofs.Files.Tree

-- The paths of discovered files: each leads to a file, by names below the root.

namespace LogOrigin

namespace Entry

-- The names that lead from an entry to one inside it.
inductive Reaches : Entry → List Text → Entry → Prop where
  | self {e : Entry} : Reaches e [] e
  | inside {entries : List (Text × Entry)} {name : Text} {names : List Text} {d e : Entry} :
    (name, d) ∈ entries → Reaches d names e → Reaches (dir entries) (name :: names) e

variable {e d : Entry} {names : List Text}

theorem Reaches.isEntryName (h : Reaches e names d) (hs : Sound e) :
    ∀ n ∈ names, IsEntryName n := by
  induction h
  case self           => nofun
  case inside hm _ hi =>
    cases hs with | dir _ hn he =>
    exact List.forall_mem_cons.mpr ⟨hn _ hm, hi (he _ hm)⟩

end Entry

namespace FilePath

variable {dir p : FilePath} {name : Text} {names : List Text}

-- The path that leads from a directory through names.
def below (dir : FilePath) (names : List Text) : FilePath :=
  names.foldl (fun p n => p.join ⟨n⟩) dir

-- The path of the names alone.
def ofEntryNames (names : List Text) : FilePath :=
  ⟨Text.joinWith ['/'] names⟩

theorem segments_ofEntryNames (hn : names ≠ []) (h : ∀ n ∈ names, IsEntryName n) :
    (ofEntryNames names).segments = names :=
  Text.splitOn_joinWith hn fun n hm => (h n hm).slash

theorem isInner_ofEntryNames (hn : names ≠ []) (h : ∀ n ∈ names, IsEntryName n) :
    (ofEntryNames names).IsInner := by
  have hs := segments_ofEntryNames hn h
  have head {s : Text} (hh : (ofEntryNames names).segments.head? = some s) : isVoid s = false :=
    (h s (hs ▸ List.mem_of_mem_head? hh)).isVoid
  have ha : (ofEntryNames names).isAbsolute = false := by
    refine Bool.eq_false_iff.mpr fun ha => ?_
    cases head (head_segments_absolute ha)
  have hd : (ofEntryNames names).segments.head? ≠ some ['.'] := by
    intro hd
    cases head hd
  refine ⟨ha, fun c hc => ?_⟩
  rw [components_eq, start, ha, if_neg Bool.false_ne_true, if_neg hd, List.nil_append, steps, hs] at hc
  obtain ⟨n, hm, hc⟩ := List.mem_filterMap.mp hc
  exact ⟨n, Option.some.inj (hc.symm.trans (h n hm).named)⟩

theorem join_join (hn : IsEntryName name) (hp : p.isAbsolute = false) :
    (dir.join ⟨name⟩).join p = dir.join ⟨name ++ '/' :: p.text⟩ := by
  have hr : (⟨name⟩ : FilePath).isAbsolute = false := isAbsolute_of_notMem hn.slash
  have hs : (⟨name⟩ : FilePath).segments = [name] := segments_of_notMem hn.slash
  have hr' : (⟨name ++ '/' :: p.text⟩ : FilePath).isAbsolute = false := by
    cases name
    case nil  => cases hn.named
    case cons => exact hr
  have hs' : (⟨name ++ '/' :: p.text⟩ : FilePath).segments = name :: p.segments := by
    rw [segments, Text.splitOn_append, Text.splitOn_of_notMem hn.slash]
    rfl
  have hl : (dir.join ⟨name⟩).segments.getLast? = some name := by
    rw [getLast_segments_join hr, hs]
    rfl
  have ht : (dir.join ⟨name⟩).text ≠ [] := by
    intro ht
    rw [segments, ht] at hl
    cases Option.some.inj hl
    cases hn.named
  have hl' : (dir.join ⟨name⟩).segments.getLast? ≠ some [] := by
    rw [hl]
    rintro ⟨⟩
    cases hn.named
  refine segments_inj ?_
  rw [segments_join ht hl' hp]
  by_cases hd : dir.text = []
  case pos => simp [join_of_nil hd, hs, hs']
  case neg =>
    obtain ⟨l, _, _, hj⟩ := exists_segments_join hd
    rw [hj _ hr, hj _ hr', hs, hs', List.append_assoc, List.singleton_append]

theorem below_eq (hn : names ≠ []) (h : ∀ n ∈ names, IsEntryName n) :
    dir.below names = dir.join (ofEntryNames names) := by
  induction names generalizing dir
  case nil              => exact absurd rfl hn
  case cons name names hi =>
    have ⟨hname, hnames⟩ := List.forall_mem_cons.mp h
    cases names
    case nil          => rfl
    case cons m names =>
      have hi : (dir.join ⟨name⟩).below (m :: names) = _ := hi (List.cons_ne_nil _ _) hnames
      rw [below, List.foldl_cons, ← below, hi,
        join_join hname (isInner_ofEntryNames (List.cons_ne_nil _ _) hnames).relative]
      exact congrArg (fun t => dir.join ⟨t⟩) (by simp [ofEntryNames, Text.joinWith])

end FilePath

namespace Files

variable {fs : Files} {p : FilePath} {e d : Entry} {names : List Text}

theorem Leads.below (h : Leads fs p e) (hs : e.Sound) (hr : Entry.Reaches e names d) :
    Leads fs (p.below names) d := by
  induction hr generalizing p
  case self           => exact h
  case inside hm _ hi =>
    cases hs with | dir hk hn he =>
    exact hi (h.join (hn _ hm) (KeyMap.get?_of_mem hk hm)) (he _ hm)

end Files

namespace Discovery

variable {κ : Type} {policy : IgnorePolicy κ} {fs : Files} {skipDirs : List Text}

-- What a found file is: a file inside the entry, whose path is written from that of the entry.
structure Inside (path : FilePath) (e : Entry) (f : Found) : Prop where
  reaches : ∃ names bytes, Entry.Reaches e names (.file bytes) ∧ f.path = path.below names
  short   : f.path.isTooLong = false

mutual

theorem inside_walk {k : κ} {names : List Text} {path : FilePath} :
    (e : Entry) → ∀ f ∈ walk policy skipDirs k names path e, Inside path e f
  | .file b, f, hf      => by
    rw [walk] at hf
    split at hf
    case isTrue    => cases hf
    case isFalse h =>
      obtain rfl := List.mem_singleton.mp hf
      exact ⟨⟨[], b, .self, rfl⟩, by simpa using h⟩
  | .dir entries, f, hf => by
    rw [walk] at hf
    obtain ⟨_, e, hm, ⟨names, b, hr, hp⟩, hs⟩ := inside_walkAll entries f hf
    exact ⟨⟨_, b, .inside hm hr, hp⟩, hs⟩

theorem inside_walkAll {k : κ} {names : List Text} {path : FilePath} :
    (l : List (Text × Entry)) → ∀ f ∈ walkAll policy skipDirs k names path l,
      ∃ name e, (name, e) ∈ l ∧ Inside (path.join ⟨name⟩) e f
  | [], _, hf             => by
    rw [walkAll] at hf
    cases hf
  | (name, e) :: l, f, hf => by
    rw [walkAll] at hf
    rcases List.mem_append.mp hf with hf | hf
    case inl =>
      split at hf
      case isTrue  => cases hf
      case isFalse => exact ⟨name, e, List.mem_cons_self .., inside_walk e f hf⟩
    case inr =>
      obtain ⟨name, e, hm, hi⟩ := inside_walkAll l f hf
      exact ⟨name, e, List.mem_cons_of_mem _ hm, hi⟩

end

variable {k : κ} {root f : FilePath} {s : SearchSettings} {d : Discovery}

-- The files that are taken up are the first ones, and there are more if and only if the last one that
-- was looked at did not fit.
theorem collect_eq {l : List Found} (hd : d.files.length ≤ s.maxFiles) (ht : d.truncated = false) :
    collect s l d =
      let files := d.files ++ (l.filter (isSource s)).map (·.path)
      ⟨files.take s.maxFiles, s.maxFiles < files.length⟩ := by
  induction l generalizing d
  case nil         =>
    obtain ⟨files, truncated⟩ := d
    simp_all [collect, List.take_of_length_le hd]
  case cons f l hi =>
    cases hf : isSource s f
    case false => simp [collect, hf, hi hd ht]
    case true  =>
      rw [collect, hf, Bool.not_true, if_neg Bool.false_ne_true]
      split
      case isTrue h  =>
        have hl : d.files.length = s.maxFiles := Nat.le_antisymm hd h
        simp [hf, ← hl]
      case isFalse h =>
        have hd : (d.files ++ [f.path]).length ≤ s.maxFiles := by
          simpa [Nat.succ_le_iff] using h
        rw [hi (d := { d with files := d.files ++ [f.path] }) hd ht, List.filter_cons_of_pos hf]
        simp

theorem ofPolicy_dir {entries : List (Text × Entry)} (h : fs.find root = .ok (.dir entries)) :
    ofPolicy policy k fs root s =
      let found := walk policy s.skipDirs k (fs.names root) root (.dir entries)
      let files := (found.filter (isSource s)).map (·.path)
      .ok ⟨files.take s.maxFiles, s.maxFiles < files.length⟩ := by
  simp only [ofPolicy, h, collect_eq (d := ⟨[], false⟩) (Nat.zero_le _) rfl, List.nil_append]

theorem mem_of_ofPolicy (h : ofPolicy policy k fs root s = .ok d) (hf : f ∈ d.files) :
    ∃ entries, fs.find root = .ok (.dir entries) ∧
      ∃ x ∈ walk policy s.skipDirs k (fs.names root) root (.dir entries),
        isSource s x = true ∧ x.path = f := by
  have hd := h
  unfold ofPolicy at hd
  split at hd
  case h_2            => cases hd
  case h_1 entries hr =>
    rw [ofPolicy_dir hr] at h
    obtain rfl := Except.ok.inj h
    obtain ⟨x, hx, rfl⟩ := List.mem_map.mp (List.mem_of_mem_take hf)
    obtain ⟨hx, hs⟩ := List.mem_filter.mp hx
    exact ⟨entries, hr, x, hx, hs, rfl⟩

theorem ofRoot_inside (h : ofRoot fs root s = .ok d) (hf : f ∈ d.files) :
    ∃ entries, fs.find root = .ok (.dir entries) ∧
      ∃ x, x.path = f ∧ Inside root (.dir entries) x := by
  obtain ⟨entries, hr, x, hx, _, rfl⟩ := mem_of_ofPolicy h hf
  exact ⟨entries, hr, x, rfl, inside_walk _ x hx⟩

-- What is discovered is there.
theorem isFile_of_mem (hs : fs.tree.Sound) (h : ofRoot fs root s = .ok d) (hf : f ∈ d.files) :
    fs.isFile f := by
  obtain ⟨_, hr, x, rfl, ⟨names, b, hn, hp⟩, hx⟩ := ofRoot_inside h hf
  have hl := (Files.find_ok_iff.mp hr).2.below (Files.sound_of_find hs hr) hn
  exact Files.isFile_iff.mpr ⟨hx, b, hp ▸ hl⟩

theorem inner_of_mem (hs : fs.tree.Sound) (h : ofRoot fs root s = .ok d) (hf : f ∈ d.files) :
    ∃ p : FilePath, p.IsInner ∧ f = root.join p := by
  obtain ⟨_, hr, x, rfl, ⟨names, b, hn, hp⟩, _⟩ := ofRoot_inside h hf
  have hne : names ≠ [] := by
    rintro rfl
    cases hn
  have he := hn.isEntryName (Files.sound_of_find hs hr)
  exact ⟨_, FilePath.isInner_ofEntryNames hne he, hp.trans (FilePath.below_eq hne he)⟩

end Discovery

end LogOrigin
