import LogOrigin.Proofs.Search.Repository
import LogOrigin.Proofs.Search.Variants

-- The scan of a repository finds every line that fits a text, no other one, and ranks them: the
-- best score first, among equal ones the first in the order of the scan.

namespace LogOrigin

open Text

namespace Score

variable {a b c : Candidate} {l : List Candidate}

-- The order of a scan: by the file, then by the line.
def Earlier (a b : Candidate) : Prop :=
  a.fileIndex < b.fileIndex ∨ a.fileIndex = b.fileIndex ∧ a.line < b.line

-- A better score comes first, and a scan decides between equal ones.
def Precedes (a b : Candidate) : Prop :=
  b.score < a.score ∨ a.score = b.score ∧ Earlier a b

instance (a b : Candidate) : Decidable (Earlier a b) :=
  inferInstanceAs (Decidable (_ ∨ _))

instance (a b : Candidate) : Decidable (Precedes a b) :=
  inferInstanceAs (Decidable (_ ∨ _))

-- Scores are compared as the numbers that they are.
theorem precedes_iff : Precedes a b ↔ b.score.toNat < a.score.toNat ∨
    a.score.toNat = b.score.toNat ∧ Earlier a b := by
  rw [Precedes, UInt32.lt_iff_toNat_lt, UInt32.toNat_inj]

theorem before_iff : before a b = true ↔ ¬Precedes b a := by
  simp only [before, precedes_iff, Earlier, Bool.or_eq_true, Bool.and_eq_true, decide_eq_true_eq,
    beq_iff_eq, UInt32.lt_iff_toNat_lt, ← UInt32.toNat_inj]
  omega

theorem precedes_of_before (h : before a b = true) (he : Earlier a b ∨ Earlier b a) :
    Precedes a b := by
  rw [before_iff] at h
  rw [precedes_iff] at *
  unfold Earlier at *
  omega

theorem mem_rank : c ∈ rank l ↔ c ∈ l :=
  List.mem_mergeSort

-- Candidates of different places are ranked without ties, in whatever order they come.
theorem pairwise_rank (h : l.Pairwise fun a b => Earlier a b ∨ Earlier b a) :
    (rank l).Pairwise Precedes := by
  have hs : (rank l).Pairwise fun a b => before a b = true := by
    apply List.pairwise_mergeSort
    case trans =>
      simp only [before_iff, precedes_iff, Earlier]
      omega
    case total =>
      intro a b
      simp only [Bool.or_eq_true, before_iff, precedes_iff, Earlier]
      omega
  have hd : (rank l).Pairwise fun a b => Earlier a b ∨ Earlier b a :=
    ((List.mergeSort_perm l before).pairwise_iff fun h => h.symm).mpr h
  exact hs.imp₂ (fun _ _ => precedes_of_before) hd

-- There is one way to rank candidates.
theorem eq_of_perm {l' : List Candidate} (hp : l.Perm l') (h : l.Pairwise Precedes)
    (h' : l'.Pairwise Precedes) : l = l' := by
  refine hp.eq_of_pairwise (fun a b _ _ hab hba => ?_) h h'
  rw [precedes_iff] at hab hba
  unfold Earlier at hab hba
  omega

-- A scan need not look at the small letters of the needle more than once.
theorem ofLowered_eq (line : Text) {text : Text} (h : trim text ≠ []) (w : Weights) :
    ofLowered line (trim text) (lowercase (trim text)) w = ofLine line text w := by
  have hn : (trim text).isEmpty = false := by simpa using h
  simp only [ofLowered, ofLine, hn, Bool.false_or, Bool.not_eq_true']
  cases contains (lowercase (Comment.strip line)) (lowercase (trim text)) <;> rfl

end Score

namespace Resolver

open Score

variable {r r' : Resolver} {fs : Files} {s : SearchSettings} {files : List FilePath} {text : Text}
variable {a b c : Candidate}

-- A candidate is a line of one of the files that scores enough.
structure Fits (fs : Files) (s : SearchSettings) (files : List FilePath) (text : Text)
    (c : Candidate) : Prop where
  file   : files[c.fileIndex]? = some c.file
  line   : ∃ t line, fs.read c.file = .ok t ∧ (lines t)[c.line]? = some line ∧
    c.score = Score.ofLine line text s.weights
  enough : max s.minScore 1 ≤ c.score

-- What a file gives for a needle, which may be blank.
theorem mem_hits_iff {needle : Text} {index : Nat} {file : FilePath} :
    c ∈ hits fs s needle index file ↔ c.fileIndex = index ∧ c.file = file ∧
      (∃ t line, fs.read file = .ok t ∧ (lines t)[c.line]? = some line ∧
        c.score = Score.ofLowered line needle (lowercase needle) s.weights) ∧
      max s.minScore 1 ≤ c.score := by
  unfold hits
  cases fs.read file
  case error => simp
  case ok t  =>
    simp only [List.mem_filterMap, Prod.exists, List.mem_zipIdx_iff_getElem?]
    constructor
    case mp  =>
      rintro ⟨line, n, hl, hc⟩
      split at hc
      case isFalse => cases hc
      case isTrue  =>
        cases hc
        exact ⟨rfl, rfl, ⟨t, line, rfl, hl, rfl⟩, ‹_›⟩
    case mpr =>
      rintro ⟨hi, hf, ⟨t, line, ⟨⟩, hl, hs⟩, he⟩
      refine ⟨line, c.line, hl, ?_⟩
      rw [← hs, if_pos he, ← hi, ← hf]

theorem mem_scan_iff {needle : Text} :
    c ∈ scan fs s needle files ↔ files[c.fileIndex]? = some c.file ∧
      (∃ t line, fs.read c.file = .ok t ∧ (lines t)[c.line]? = some line ∧
        c.score = Score.ofLowered line needle (lowercase needle) s.weights) ∧
      max s.minScore 1 ≤ c.score := by
  simp only [scan, mem_rank, List.mem_flatMap, Prod.exists, List.mem_zipIdx_iff_getElem?,
    mem_hits_iff]
  constructor
  case mp  =>
    rintro ⟨file, index, hf, rfl, rfl, hl, he⟩
    exact ⟨hf, hl, he⟩
  case mpr => exact fun ⟨hf, hl, he⟩ => ⟨c.file, c.fileIndex, hf, rfl, rfl, hl, he⟩

theorem mem_scan (h : trim text ≠ []) :
    c ∈ scan fs s (trim text) files ↔ Fits fs s files text c := by
  simp only [mem_scan_iff, ofLowered_eq _ h]
  exact ⟨fun ⟨hf, hl, he⟩ => ⟨hf, hl, he⟩, fun ⟨hf, hl, he⟩ => ⟨hf, hl, he⟩⟩

theorem pairwise_hits (fs : Files) (s : SearchSettings) (needle : Text) (index : Nat)
    (file : FilePath) : (hits fs s needle index file).Pairwise Earlier := by
  unfold hits
  cases fs.read file
  case error => exact .nil
  case ok t  =>
    refine List.pairwise_filterMap.mpr <| (Lists.zipIdx_increasing (lines t)).imp ?_
    intro x y hxy a ha b hb
    obtain ⟨_, ⟨⟩⟩ := Option.ite_none_right_eq_some.mp ha
    obtain ⟨_, ⟨⟩⟩ := Option.ite_none_right_eq_some.mp hb
    exact .inr ⟨rfl, hxy⟩

theorem pairwise_flatMap_hits (fs : Files) (s : SearchSettings) (needle : Text)
    (files : List FilePath) :
    (files.zipIdx.flatMap fun e => hits fs s needle e.2 e.1).Pairwise Earlier := by
  refine List.pairwise_flatMap.mpr ⟨fun x _ => pairwise_hits .., ?_⟩
  refine (Lists.zipIdx_increasing files).imp fun {x y} hxy a ha b hb => .inl ?_
  rw [(mem_hits_iff.mp ha).1, (mem_hits_iff.mp hb).1]
  exact hxy

theorem pairwise_scan {needle : Text} : (scan fs s needle files).Pairwise Precedes :=
  pairwise_rank <| (pairwise_flatMap_hits fs s needle files).imp .inl

theorem search_short {cancelled : Bool} (h : (trim text).length < r.settings.minSearchLen) :
    r.search fs text cancelled = (.ok [], r) := by
  simp [search, h]

theorem scans_sources (r : Resolver) (fs : Files) : (r.sources fs).2.scans = r.scans := by
  unfold sources
  split
  case h_1 => rfl
  case h_2 => split <;> rfl

theorem search_long (hl : r.settings.minSearchLen ≤ (trim text).length)
    (hf : r.sources fs = (.ok files, r')) (cancelled : Bool) : r.search fs text cancelled =
      (if cancelled then .error .cancelled else .ok (scan fs r.settings (trim text) files),
        { r' with scans := r.scans + 1 }) := by
  have hs : r'.settings = r.settings := by simpa [hf] using (r.same_sources fs).settings
  have hc : r'.scans = r.scans := by simpa [hf] using r.scans_sources fs
  rw [search, if_neg (Nat.not_lt.mpr hl), hf]
  cases cancelled <;> simp [hs, hc]

-- A search that answers has scanned all files, unless the text is too short.
theorem search_ok {cancelled : Bool} {found : List Candidate}
    (h : (r.search fs text cancelled).1 = .ok found) :
    (trim text).length < r.settings.minSearchLen ∧ found = [] ∨
    r.settings.minSearchLen ≤ (trim text).length ∧ ∃ files, (r.sources fs).1 = .ok files ∧
      found = scan fs r.settings (trim text) files := by
  by_cases hl : (trim text).length < r.settings.minSearchLen
  case pos =>
    rw [search_short hl] at h
    exact .inl ⟨hl, (Except.ok.inj h).symm⟩
  case neg =>
    have hl := Nat.not_lt.mp hl
    rcases hf : r.sources fs with ⟨_ | files, r'⟩
    case error => simp [search, Nat.not_lt.mpr hl, hf] at h
    case ok    =>
      rw [search_long hl hf] at h
      cases cancelled
      case true  => cases h
      case false => exact .inr ⟨hl, files, rfl, (Except.ok.inj h).symm⟩

-- The candidate that all others come after.
structure IsBest (fs : Files) (s : SearchSettings) (files : List FilePath) (text : Text)
    (c : Candidate) : Prop extends Fits fs s files text c where
  first : ∀ d, Fits fs s files text d → d = c ∨ Precedes c d

theorem search_found {cancelled : Bool} {l : List Candidate} (ht : trim text ≠ [])
    (h : (r.search fs text cancelled).1 = .ok (c :: l)) :
    ∃ files, (r.sources fs).1 = .ok files ∧ IsBest fs r.settings files text c := by
  rcases search_ok h with ⟨_, hn⟩ | ⟨_, files, hf, hs⟩
  case inl => cases hn
  case inr =>
    have hm d : d ∈ c :: l ↔ Fits fs r.settings files text d := hs ▸ mem_scan ht
    have hp : (c :: l).Pairwise Precedes := hs ▸ pairwise_scan
    refine ⟨files, hf, (hm c).mp (List.mem_cons_self ..), fun d hd => ?_⟩
    exact (List.mem_cons.mp ((hm d).mpr hd)).imp_right (List.rel_of_pairwise_cons hp)

theorem firstMatch_found {cancelled : Bool} {o : Origin} {l : List (Stage × Text)}
    (hl : ∀ e ∈ l, trim e.2 ≠ []) (h : (firstMatch fs cancelled l r).1 = .ok (some o)) :
    ∃ files needle c, (r.sources fs).1 = .ok files ∧ (o.stage, needle) ∈ l ∧
      o = .ofCandidate o.stage c ∧ IsBest fs r.settings files needle c := by
  induction l generalizing r
  case nil         => cases h
  case cons e l hi =>
    have ⟨he, hl⟩ := List.forall_mem_cons.mp hl
    have hs := r.continues_search fs e.2 cancelled
    have hb {c k} (hc : (r.search fs e.2 cancelled).1 = .ok (c :: k)) := search_found he hc
    unfold firstMatch at h
    generalize r.search fs e.2 cancelled = p at h hs hb
    obtain ⟨found, r'⟩ := p
    rcases found with _ | _ | ⟨c, k⟩
    case error   => cases h
    case ok.cons =>
      cases h
      obtain ⟨files, hf, hc⟩ := hb rfl
      exact ⟨files, e.2, c, hf, List.mem_cons_self .., rfl, hc⟩
    case ok.nil  =>
      obtain ⟨files, needle, c, hf, hn, ho, hc⟩ := hi hl h
      exact ⟨files, needle, c, hs.sources ▸ hf, List.mem_cons_of_mem _ hn, ho, hs.settings ▸ hc⟩

-- No text is searched for that shows nothing.
theorem trim_needle {record : Record} : ∀ e ∈ needles record, trim e.2 ≠ [] := by
  intro e he
  simp only [needles, List.mem_append] at he
  rcases he with he | he
  case inl =>
    split at he
    case h_2 => cases he
    case h_1 search hs =>
      rcases List.mem_cons.mp he with rfl | he
      case inl =>
        have ⟨hs, hn⟩ := Option.filter_eq_some_iff.mp hs
        obtain ⟨a, _, rfl⟩ := Option.map_eq_some_iff.mp hs
        simpa using hn
      case inr =>
        obtain ⟨v, hv, rfl⟩ := List.mem_map.mp he
        exact Cleaning.trim_variant v hv
  case inr =>
    split at he
    case isTrue  => cases he
    case isFalse hc =>
      obtain rfl := List.mem_singleton.mp he
      simp only [Bool.or_eq_true, not_or] at hc
      simpa [Cleaning.clean] using hc.1

-- The stages that scan the files find the best line for one of the texts to search for.
theorem scanned_isBest {record : Record} {cancelled : Bool} {o : Origin}
    (ho : o.stage ∈ [Stage.staticString, .variant, .cleanedMessage])
    (h : (r.resolve fs record cancelled).1 = .ok (.found o)) :
    ∃ files needle c, (r.sources fs).1 = .ok files ∧ (o.stage, needle) ∈ needles record ∧
      o = .ofCandidate o.stage c ∧ IsBest fs r.settings files needle c := by
  rcases resolve_found h with h | h | h | ⟨_, _, _, _, rfl⟩
  case inr.inr.inl => exact firstMatch_found trim_needle h
  case inl         =>
    obtain ⟨_, _, _, _, rfl⟩ := ofCache?_found h
    simp [Origin.ofLocation] at ho
  case inr.inl     =>
    obtain ⟨_, _, _, _, rfl⟩ := ofHints?_found h
    simp [Origin.ofLocation] at ho
  case inr.inr.inr => simp [Origin.ofLocation] at ho

-- A text that is too short is not searched for, and no scan is counted. Any other text that shows
-- something is searched for in all files: the lines that fit are found, each of them once, in the
-- order of their ranks. What a stage finds by a scan comes before all else that fits its text.
theorem search_complete (r : Resolver) (fs : Files) :
    (∀ text cancelled, (trim text).length < r.settings.minSearchLen →
      r.search fs text cancelled = (.ok [], r)) ∧
    (∀ text files r', (∃ c ∈ text, isBlank c = false) →
      r.settings.minSearchLen ≤ (trim text).length → r.sources fs = (.ok files, r') →
      ∃ found, r.search fs text false = (.ok found, { r' with scans := r.scans + 1 }) ∧
        (∀ c, c ∈ found ↔ Fits fs r.settings files text c) ∧ found.Pairwise Precedes) ∧
    (∀ record cancelled o, (r.resolve fs record cancelled).1 = .ok (.found o) →
      o.stage ∈ [Stage.staticString, .variant, .cleanedMessage] →
      ∃ files needle c, (r.sources fs).1 = .ok files ∧ (o.stage, needle) ∈ needles record ∧
        o = .ofCandidate o.stage c ∧ IsBest fs r.settings files needle c) := by
  refine ⟨fun _ _ => search_short, ?_, fun _ _ _ h ho => scanned_isBest ho h⟩
  intro text files r' ht hl hf
  rw [← trim_ne_nil_iff] at ht
  exact ⟨_, search_long hl hf false, fun c => mem_scan ht, pairwise_scan⟩

-- Three lines fit, in the first and the last one of four files, the others of which are missing or
-- no text. The last line is the best one.
theorem search_complete_tied :
    let file (c : Char) : FilePath := ⟨[c]⟩
    let fs : Files := ⟨.dir [(['a'], .file "x\nlog(ab)\n".toUTF8), (['c'], .file ⟨#[255]⟩),
      (['d'], .file "ab + c\nlog(AB)\nab".toUTF8)], []⟩
    let s : SearchSettings := { Settings.default.search with minSearchLen := 2 }
    let r : Resolver := ⟨file '.', s, some [file 'a', file 'b', file 'c', file 'd'], 4⟩
    let record : Record :=
      ⟨[], .info, ['a', 'b'], none, .single Record.rootName [], [], none, none, none⟩
    let found : List Candidate :=
      [⟨3, file 'd', 2, 40⟩, ⟨0, file 'a', 1, 10⟩, ⟨3, file 'd', 0, 10⟩, ⟨3, file 'd', 1, 10⟩]
    r.search fs [' ', 'a'] false = (.ok [], r) ∧
    r.search fs [' ', 'a', 'b'] false = (.ok found, { r with scans := 5 }) ∧
    (∀ c, c ∈ found ↔ Fits fs s [file 'a', file 'b', file 'c', file 'd'] [' ', 'a', 'b'] c) ∧
    (r.resolve fs record false).1 = .ok (.found ⟨file 'd', 2, 40, .cleanedMessage⟩) ∧
    ∃ files needle c, c.file = file 'd' ∧ c.line = 2 ∧ IsBest fs s files needle c := by
  intro file fs s r record found
  have ⟨short, long, best⟩ := search_complete r fs
  have ⟨l, hl, hm, hp⟩ :=
    long [' ', 'a', 'b'] _ r ⟨'a', by decide +kernel⟩ (by decide +kernel) rfl
  have hs : l = found := by
    rw [search_long (by decide +kernel) rfl] at hl
    obtain rfl := Except.ok.inj (Prod.mk.inj hl).left
    exact eq_of_perm ((List.mergeSort_perm ..).trans <| by decide +kernel) hp (by decide)
  subst hs
  have hr : (r.resolve fs record false).1 = .ok (.found ⟨file 'd', 2, 40, .cleanedMessage⟩) := by
    have hc : (ofCache? fs r.root record).or (ofHints? fs r.root record) = none := by
      decide +kernel
    have hn : needles record = [(.cleanedMessage, ['a', 'b'])] := by decide +kernel
    have hl : r.search fs ['a', 'b'] false = (.ok found, { r with scans := 5 }) := hl
    simp [resolve, stages, hc, ofSources, hn, firstMatch, hl, found, resolutionOf,
      Origin.ofCandidate]
  refine ⟨short _ _ (by decide +kernel), hl, hm, hr, ?_⟩
  have ⟨files, needle, c, _, _, hc, hb⟩ := best record false _ hr (by decide)
  have ⟨hf, hc, _, _⟩ := Origin.mk.inj hc
  exact ⟨files, needle, c, hf.symm, hc.symm, hb⟩

end Resolver

end LogOrigin
