import LogOrigin.Proofs.Search.Discovery

-- A discovery that stops early has found the first source files of the whole repository. Whatever is
-- no source file does not count.

namespace LogOrigin

namespace Entry

def size? : Entry → Option Nat
  | file b => some b.size
  | dir _  => none

end Entry

namespace Discovery

open Text

-- An entry with the names that lead to it.
structure Listed where
  way   : List Text
  entry : Entry

def Listed.inside (name : Text) (x : Listed) : Listed :=
  { x with way := name :: x.way }

section

variable {κ : Type} (policy : IgnorePolicy κ)

mutual

-- Everything in an entry that is not ignored: the entry itself, and then what is inside it, in the
-- order of the names.
def listing (k : κ) (names : List Text) (path : FilePath) : Entry → List Listed
  | .file b      => [⟨[], .file b⟩]
  | .dir entries => ⟨[], .dir entries⟩ :: listingAll (policy.enter k names path) names path entries

def listingAll (k : κ) (names : List Text) (path : FilePath) : List (Text × Entry) → List Listed
  | []             => []
  | (name, e) :: l =>
    (if policy.ignores k (names ++ [name]) e.isDir then []
      else (listing k (names ++ [name]) (path.join ⟨name⟩) e).map (.inside name)) ++
    listingAll k names path l

end

end

-- The extension of a path is one of the settings, where dots in front and cases do not matter.
def HasExtension (s : SearchSettings) (p : FilePath) : Prop :=
  ∃ e ∈ p.extension?, ∃ x ∈ s.extensions,
    (x.dropWhile (· == '.')).map asciiLower = e.map asciiLower

-- What counts as a source file of a directory.
structure Eligible (s : SearchSettings) (root : FilePath) (x : Listed) : Prop where
  small     : ∃ n ∈ x.entry.size?, n ≤ s.maxFileSize
  readable  : (root.below x.way).isTooLong = false
  extension : HasExtension s (root.below x.way)
  unskipped : ∀ n ∈ x.way.dropLast, n ∉ s.skipDirs

instance (s : SearchSettings) (p : FilePath) : Decidable (HasExtension s p) :=
  inferInstanceAs (Decidable (∃ e ∈ p.extension?, ∃ x ∈ s.extensions, _))

instance (s : SearchSettings) (root : FilePath) (x : Listed) : Decidable (Eligible s root x) :=
  decidable_of_iff
    ((∃ n ∈ x.entry.size?, n ≤ s.maxFileSize) ∧ (root.below x.way).isTooLong = false ∧
      HasExtension s (root.below x.way) ∧
      (x.way.dropLast.all fun n => !s.skipDirs.elem n) = true) <| by
    have hs : (x.way.dropLast.all fun n => !s.skipDirs.elem n) = true ↔
        ∀ n ∈ x.way.dropLast, n ∉ s.skipDirs := by simp
    rw [hs]
    exact ⟨fun h => ⟨h.1, h.2.1, h.2.2.1, h.2.2.2⟩, fun h => ⟨h.1, h.2, h.3, h.4⟩⟩

variable {κ : Type} {policy : IgnorePolicy κ} {k : κ} {names : List Text} {name : Text} {e : Entry}
variable {fs : Files} {s : SearchSettings} {root path : FilePath} {f : Found} {x : Listed}

theorem isSource_iff : isSource s f = true ↔ HasExtension s f.path ∧ f.size ≤ s.maxFileSize := by
  simp [isSource, HasExtension, Option.any_eq_true, extensionKey]

theorem eligible_inside_iff : Eligible s path (x.inside name) ↔
    Eligible s (path.join ⟨name⟩) x ∧ (x.way ≠ [] → name ∉ s.skipDirs) := by
  have hw : (∀ n ∈ (name :: x.way).dropLast, n ∉ s.skipDirs) ↔
      (∀ n ∈ x.way.dropLast, n ∉ s.skipDirs) ∧ (x.way ≠ [] → name ∉ s.skipDirs) := by
    cases x.way
    case nil  => simp
    case cons => simp [and_comm]
  constructor
  case mp  => exact fun h => ⟨⟨h.small, h.readable, h.extension, (hw.mp h.unskipped).1⟩,
    (hw.mp h.unskipped).2⟩
  case mpr => exact fun ⟨h, hn⟩ => ⟨h.small, h.readable, h.extension, hw.mpr ⟨h.unskipped, hn⟩⟩

theorem way_of_mem_listingAll {l : List (Text × Entry)} (h : x ∈ listingAll policy k names path l) :
    x.way ≠ [] := by
  induction l
  case nil        =>
    rw [listingAll] at h
    cases h
  case cons y l hi =>
    rw [listingAll] at h
    rcases List.mem_append.mp h with h | h
    case inr => exact hi h
    case inl =>
      split at h
      case isTrue  => cases h
      case isFalse =>
        obtain ⟨z, _, rfl⟩ := List.mem_map.mp h
        exact List.cons_ne_nil _ _

-- Only the entry itself is listed without a name.
theorem entry_of_mem_listing (h : x ∈ listing policy k names path e) (hw : x.way = []) :
    x.entry = e := by
  cases e
  all_goals rw [listing] at h
  case file =>
    obtain rfl := List.mem_singleton.mp h
    rfl
  case dir  =>
    rcases List.mem_cons.mp h with rfl | h
    case inl => rfl
    case inr => exact absurd hw <| way_of_mem_listingAll h

theorem eligible_file_iff {b : ByteArray} : Eligible s path ⟨[], .file b⟩ ↔
    path.isTooLong = false ∧ isSource s ⟨path, b.size⟩ = true := by
  rw [isSource_iff]
  constructor
  case mp  =>
    rintro ⟨⟨_, ⟨⟩, small⟩, readable, extension, _⟩
    exact ⟨readable, extension, small⟩
  case mpr =>
    rintro ⟨readable, extension, small⟩
    exact ⟨⟨_, rfl, small⟩, readable, extension, nofun⟩

theorem not_eligible_dir {way : List Text} {entries : List (Text × Entry)} :
    ¬Eligible s path ⟨way, .dir entries⟩ := by
  rintro ⟨⟨_, ⟨⟩, _⟩, _⟩

-- Nothing inside a directory that is skipped is a source file.
theorem not_eligible_skipped (hd : e.isDir = true) (hs : name ∈ s.skipDirs)
    (hx : x ∈ listing policy k names (path.join ⟨name⟩) e) : ¬Eligible s path (x.inside name) := by
  intro h
  obtain ⟨h, hn⟩ := eligible_inside_iff.mp h
  by_cases hw : x.way = []
  case pos =>
    obtain ⟨_, hn, _⟩ := h.small
    rw [entry_of_mem_listing hx hw] at hn
    cases e
    case file => cases hd
    case dir  => cases hn
  case neg => exact hn hw hs

theorem eligible_inside_unskipped (hs : e.isDir = true → name ∉ s.skipDirs)
    (hx : x ∈ listing policy k names (path.join ⟨name⟩) e) :
    Eligible s path (x.inside name) ↔ Eligible s (path.join ⟨name⟩) x := by
  rw [eligible_inside_iff, and_iff_left_iff_imp]
  intro _ hw
  cases e
  case dir  => exact hs rfl
  case file =>
    rw [listing] at hx
    obtain rfl := List.mem_singleton.mp hx
    exact absurd rfl hw

mutual

-- By recursion on the entry. A directory that is skipped is not even looked into, which makes no
-- difference: no file inside it is a source file.
theorem sources_walk {k : κ} {names : List Text} {path : FilePath} :
    (e : Entry) →
      ((walk policy s.skipDirs k names path e).filter (isSource s)).map (·.path) =
        ((listing policy k names path e).filter (Eligible s path ·)).map (path.below ·.way)
  | .file b      => by
    rw [walk, listing]
    cases hl : path.isTooLong
    case true  => simp [eligible_file_iff, hl]
    case false =>
      cases hs : isSource s ⟨path, b.size⟩
      case false => simp [eligible_file_iff, hs]
      case true  =>
        simp [eligible_file_iff, hl, hs]
        rfl
  | .dir entries => by
    rw [walk, listing, List.filter_cons_of_neg (by simpa using not_eligible_dir),
      sources_walkAll entries]

theorem sources_walkAll {k : κ} {names : List Text} {path : FilePath} :
    (l : List (Text × Entry)) →
      ((walkAll policy s.skipDirs k names path l).filter (isSource s)).map (·.path) =
        ((listingAll policy k names path l).filter (Eligible s path ·)).map (path.below ·.way)
  | []             => by
    rw [walkAll, listingAll]
    rfl
  | (name, e) :: l => by
    rw [walkAll, listingAll, List.filter_append, List.filter_append, List.map_append,
      List.map_append, sources_walkAll l]
    congr 1
    unfold isPruned
    cases policy.ignores k (names ++ [name]) e.isDir
    case true  => rfl
    case false =>
      rw [Bool.false_or, if_neg Bool.false_ne_true]
      split
      case isTrue h  =>
        have ⟨hd, hs⟩ : e.isDir = true ∧ name ∈ s.skipDirs := by simpa using h
        have hf : (listing policy k (names ++ [name]) (path.join ⟨name⟩) e).filter
            ((fun x => decide (Eligible s path x)) ∘ Listed.inside name) = [] := by
          refine List.filter_eq_nil_iff.mpr fun x hx => ?_
          simpa using not_eligible_skipped hd hs hx
        rw [List.filter_map, hf]
        rfl
      case isFalse h =>
        have hs : e.isDir = true → name ∉ s.skipDirs := by simpa using h
        rw [sources_walk e, List.filter_map, List.map_map]
        have hf : (listing policy k (names ++ [name]) (path.join ⟨name⟩) e).filter
            (Eligible s (path.join ⟨name⟩) ·) =
            (listing policy k (names ++ [name]) (path.join ⟨name⟩) e).filter
              ((fun x => decide (Eligible s path x)) ∘ Listed.inside name) := by
          refine List.filter_congr fun x hx => ?_
          simpa using (eligible_inside_unskipped hs hx).symm
        rw [hf]
        rfl

end

end Discovery

end LogOrigin
