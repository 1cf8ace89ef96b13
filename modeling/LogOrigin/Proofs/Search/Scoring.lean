import LogOrigin.Proofs.Search.Scan
import LogOrigin.Proofs.Source.Header
import LogOrigin.Proofs.Text.Lowercase

-- The scores that a scan gives are those of the lines by themselves, but for blank texts. A line that
-- holds a text as it is written scores, unless a sigma of the text changes its form there.

namespace LogOrigin

open Text

-- A line without comment signs is code.
theorem Comment.strip_eq {line : Text} (h : '/' ∉ line) (h' : '#' ∉ line) : strip line = line := by
  obtain ⟨comment, hl, hc⟩ := exists_strip line
  rcases comment with _ | ⟨c, t⟩
  case nil  => simpa using hl.symm
  case cons =>
    have hm : c ∈ line := hl ▸ by simp
    rcases hc c rfl with rfl | rfl
    case inl => exact absurd hm h
    case inr => exact absurd hm h'

namespace Score

variable {line needle text : Text} {w : Weights}

theorem ofLine_blank (h : trim text = []) (line : Text) (w : Weights) : ofLine line text w = 0 := by
  simp [ofLine, h]

-- Every line contains nothing.
theorem ofLowered_blank (line : Text) (w : Weights) :
    ofLowered line [] (lowercase []) w = ofContaining (Comment.strip line) [] w := by
  have h : contains (lowercase (Comment.strip line)) [] = true := contains_iff.mpr ⟨[], _, rfl⟩
  rw [lowercase_nil, ofLowered, h]
  rfl

theorem ofLine_eq (h : trim text ≠ []) (line : Text) (w : Weights) : ofLine line text w =
    if contains (lowercase (Comment.strip line)) (lowercase (trim text)) then
      ofContaining (Comment.strip line) (trim text) w
    else 0 :=
  (ofLowered_eq line h w).symm

@[simp]
theorem toNat_less (a b : Points) : (less a b).toNat = a.toNat - b.toNat := by
  unfold less
  split
  case isTrue h  => exact UInt32.toNat_sub_of_le a b h
  case isFalse h =>
    have h := UInt32.lt_iff_toNat_lt.mp (UInt32.not_le.mp h)
    exact (Nat.sub_eq_zero_of_le h.le).symm

-- What a line earns for a needle that it contains, however much that is.
def earned (code needle : Text) (w : Weights) : Nat :=
  w.base.toNat +
    (if trim code = needle then w.exact.toNat else 0) +
    (if Declaration.isDeclaration code then w.declaration.toNat else 0) +
    (if Statement.isLogging code then w.logging.toNat else 0)

-- What a line loses.
def penalty (code : Text) (w : Weights) : Nat :=
  if Statement.isImport code then w.importPenalty.toNat else 0

theorem base_le_earned (code needle : Text) (w : Weights) :
    w.base.toNat ≤ earned code needle w := by
  unfold earned
  omega

theorem earned_le (code needle : Text) (w : Weights) : earned code needle w ≤
    w.base.toNat + w.exact.toNat + w.declaration.toNat + w.logging.toNat := by
  have hi {p : Prop} [Decidable p] (n : Nat) : (if p then n else 0) ≤ n := by split <;> omega
  exact Nat.add_le_add (Nat.add_le_add (Nat.add_le_add_left (hi _) _) (hi _)) (hi _)

theorem penalty_le (code : Text) (w : Weights) : penalty code w ≤ w.importPenalty.toNat := by
  unfold penalty
  split <;> omega

-- What is earned may wrap around, what is lost does not.
theorem toNat_ofContaining (code needle : Text) (w : Weights) :
    (ofContaining code needle w).toNat = earned code needle w % 2 ^ 32 - penalty code w := by
  have hi {p : Prop} [Decidable p] (n : Points) :
      (if p then n else 0).toNat = if p then n.toNat else 0 := by split <;> rfl
  have sum : (w.base + (if trim code = needle then w.exact else 0) +
      (if Declaration.isDeclaration code then w.declaration else 0) +
      (if Statement.isLogging code then w.logging else 0)).toNat =
        earned code needle w % 2 ^ 32 := by
    simp only [UInt32.toNat_add, hi, Nat.mod_add_mod]
    rfl
  unfold ofContaining penalty
  simp only
  split
  case isTrue  => rw [toNat_less, sum]
  case isFalse => rw [sum, Nat.sub_zero]

-- The score of a line that is found. It is at least what is left of the base, as long as what the
-- line earns is a number of 32 bits.
structure Scores (w : Weights) (line text : Text) : Prop where
  sum   : (ofLine line text w).toNat =
    earned (Comment.strip line) (trim text) w % 2 ^ 32 - penalty (Comment.strip line) w
  least : earned (Comment.strip line) (trim text) w < 2 ^ 32 →
    w.base - w.importPenalty ≤ ofLine line text w ∧ 0 < ofLine line text w

theorem scores_of_contains (hw : w.importPenalty < w.base) (h : trim text ≠ [])
    (hc : contains (lowercase (Comment.strip line)) (lowercase (trim text)) = true) :
    Scores w line text := by
  have hs : (ofLine line text w).toNat =
      earned (Comment.strip line) (trim text) w % 2 ^ 32 - penalty (Comment.strip line) w := by
    rw [ofLine_eq h, hc, if_pos rfl, toNat_ofContaining]
  refine ⟨hs, fun he => ?_⟩
  have hb := base_le_earned (Comment.strip line) (trim text) w
  have hp := penalty_le (Comment.strip line) w
  have hd := UInt32.toNat_sub_of_le _ _ (UInt32.le_of_lt hw)
  rw [Nat.mod_eq_of_lt he] at hs
  rw [UInt32.lt_iff_toNat_lt] at hw
  rw [UInt32.le_iff_toNat_le, UInt32.lt_iff_toNat_lt, UInt32.toNat_zero]
  omega

-- A score that is enough is positive.
theorem pos_of_enough {least score : Points} (h : max least 1 ≤ score) : 0 < score := by
  have h : (if least ≤ 1 then 1 else least) ≤ score := h
  have hz : (0 : Points) < 1 := by decide
  split at h
  case isTrue     => exact UInt32.lt_of_lt_of_le hz h
  case isFalse hl => exact UInt32.lt_of_lt_of_le (UInt32.lt_trans hz (UInt32.not_le.mp hl)) h

-- A text that stands in the code of a line is found there if its sigmas have the forms that they have
-- in the text alone. No line hides a text whose sigmas are all settled. If one of them is not, there
-- is a line with the text that does not score.
theorem verbatim_scores (hw : w.importPenalty < w.base) (ht : ∃ c ∈ text, isBlank c = false) :
    (∀ line s r, Comment.strip line = s ++ trim text ++ r → KeepsSigmas s (trim text) r →
      Scores w line text) ∧
    ((∀ a b, trim text = a ++ 'Σ' :: b → Settled a b) → ∀ line,
      contains (Comment.strip line) (trim text) = true → Scores w line text) ∧
    (∀ a b, trim text = a ++ 'Σ' :: b → ¬Settled a b → '/' ∉ text → '#' ∉ text → ∃ line,
      contains (Comment.strip line) (trim text) = true ∧ ofLine line text w = 0) := by
  rw [← trim_ne_nil_iff] at ht
  have kept {line s r : Text} (hl : Comment.strip line = s ++ trim text ++ r)
      (hk : KeepsSigmas s (trim text) r) : Scores w line text :=
    scores_of_contains hw ht <| hl ▸ hk.contains
  refine ⟨fun _ _ _ => kept, fun hs line hc => ?settled, fun a b hab hn hc hc' => ?changed⟩
  case settled =>
    obtain ⟨s, r, hl⟩ := contains_iff.mp hc
    exact kept hl <| keepsSigmas_of_settled hs s r
  case changed =>
    obtain ⟨s, r, hs, hr, hn⟩ := exists_not_contains hn
    rw [← hab] at hn
    have plain {c : Char} (hc : c ∉ text) (ha : c ∉ ['a']) : c ∉ s ++ trim text ++ r := by
      obtain ⟨u, v, ht, _⟩ := exists_trim text
      have : c ∉ trim text := fun h => hc <| ht ▸ by simp [h]
      simp only [List.mem_append, this, or_false, not_or]
      exact ⟨fun h => ha (hs h), fun h => ha (hr h)⟩
    have hl := Comment.strip_eq (plain hc (by decide)) (plain hc' (by decide))
    refine ⟨s ++ trim text ++ r, ?_, ?_⟩
    · exact hl.symm ▸ contains_iff.mpr ⟨s, r, rfl⟩
    · rw [ofLine_eq ht, hl, hn]
      rfl

-- The sigma is final in the text and before a blank, but not before a letter: there the text is not
-- found. Where it is found, an exact line with the greatest base has earned nothing in the end.
theorem verbatim_missed :
    let w : Weights := { Settings.defaultWeights with importPenalty := 5 }
    let line := "x = ΑΣΑ".toList
    let text := "ΑΣ".toList
    (w.importPenalty < w.base ∧ (∃ c ∈ text, isBlank c = false) ∧
      contains (Comment.strip line) (trim text) = true ∧ ofLine line text w = 0) ∧
    let w : Weights := { w with base := 0xFFFFFFFF, exact := 1 }
    w.importPenalty < w.base ∧ contains (Comment.strip text) (trim text) = true ∧
      ofLine text text w = 0 := by
  intro w line text
  exact ⟨⟨by decide, ⟨'Α', by decide, by decide⟩, by decide +kernel⟩, by decide +kernel⟩

-- The same text before a blank, with a comment behind it. It is not settled, but a text with a
-- bracket at its end is.
theorem verbatim_scores_final :
    let w : Weights := { Settings.defaultWeights with importPenalty := 5 }
    let line := "x = ΑΣ // Α".toList
    w.importPenalty < w.base ∧ (∃ c ∈ " ΑΣ".toList, isBlank c = false) ∧
      Comment.strip line = "x = ".toList ++ trim " ΑΣ".toList ++ [' '] ∧
      KeepsSigmas "x = ".toList (trim " ΑΣ".toList) [' '] ∧
      w.base - w.importPenalty ≤ ofLine line " ΑΣ".toList w ∧
      ¬Settled ['Α'] [] ∧ (∃ line, contains (Comment.strip line) (trim " ΑΣ".toList) = true ∧
        ofLine line " ΑΣ".toList w = 0) ∧
      Settled ['Α'] [')'] ∧ ∀ line, contains (Comment.strip line) "ΑΣ)".toList = true →
        w.base - w.importPenalty ≤ ofLine line "ΑΣ)".toList w := by
  intro w line
  have hw : w.importPenalty < w.base := by decide
  have ht : ∃ c ∈ " ΑΣ".toList, isBlank c = false := ⟨'Α', by decide, by decide⟩
  have hl : Comment.strip line = "x = ".toList ++ trim " ΑΣ".toList ++ [' '] := by decide +kernel
  have only {t a b : Text} (ht : 'Σ' ∉ t) (ha : 'Α' :: 'Σ' :: t = a ++ 'Σ' :: b) :
      a = ['Α'] ∧ b = t := by
    rcases a with _ | ⟨c, _ | ⟨d, a⟩⟩
    case nil       => exact absurd (List.cons.inj ha).1 (by decide)
    case cons.nil  =>
      obtain ⟨rfl, ha⟩ := List.cons.inj ha
      exact ⟨rfl, (by simpa using ha : t = b).symm⟩
    case cons.cons => simp_all
  have hk : KeepsSigmas "x = ".toList (trim " ΑΣ".toList) [' '] := by
    intro a b hab
    obtain ⟨rfl, rfl⟩ := only (t := []) (by simp) hab
    decide +kernel
  have hn : ¬Settled ['Α'] [] := by
    have ha : ['Α'].reverse.find? isTelling = some 'Α' := by decide +kernel
    rintro (⟨h, hc⟩ | ⟨h, hc⟩ | ⟨h, hc, hd, hd'⟩)
    case start =>
      obtain rfl := Option.some.inj (ha.symm.trans h)
      exact absurd hc (by decide +kernel)
    case inner => cases h
    case final => cases hd
  have hs : Settled ['Α'] [')'] :=
    .final (c := 'Α') (d := ')') (by decide +kernel) (by decide +kernel) (by decide +kernel)
      (by decide +kernel)
  have he (line text : Text) : earned (Comment.strip line) (trim text) w < 2 ^ 32 :=
    Nat.lt_of_le_of_lt (earned_le ..) (by decide)
  have ⟨kept, _, changed⟩ := verbatim_scores hw ht
  have ht' : ∃ c ∈ "ΑΣ)".toList, isBlank c = false := ⟨'Α', by decide, by decide⟩
  have ⟨_, settled, _⟩ := verbatim_scores hw ht'
  refine ⟨hw, ht, hl, hk, ((kept line _ _ hl hk).least (he ..)).1, hn,
    changed ['Α'] [] rfl hn (by decide) (by decide), hs,
    fun line hc => ((settled ?_ line hc).least (he ..)).1⟩
  intro a b hab
  obtain ⟨rfl, rfl⟩ := only (t := [')']) (by decide) hab
  exact hs

end Score

namespace Resolver

variable {r : Resolver} {fs : Files} {text : Text} {w : Weights} {c : Candidate}

-- The line of a candidate scores for the text, and this is the score of the candidate.
def Earns (fs : Files) (w : Weights) (text : Text) (c : Candidate) : Prop :=
  ∃ t line, fs.read c.file = .ok t ∧ (lines t)[c.line]? = some line ∧
    c.score = Score.ofLine line text w ∧ 0 < Score.ofLine line text w

theorem Fits.earns {s : SearchSettings} {files : List FilePath} (h : Fits fs s files text c) :
    Earns fs s.weights text c := by
  obtain ⟨t, line, hr, hl, hs⟩ := h.line
  exact ⟨t, line, hr, hl, hs, hs ▸ Score.pos_of_enough h.enough⟩

theorem not_earns_blank (h : trim text = []) : ¬Earns fs w text c := by
  rintro ⟨t, line, _, _, _, hp⟩
  simp [Score.ofLine_blank h] at hp

theorem earns_of_search {cancelled : Bool} {found : List Candidate} (ht : trim text ≠ [])
    (h : (r.search fs text cancelled).1 = .ok found) :
    ∀ c ∈ found, Earns fs r.settings.weights text c := by
  rcases search_ok h with ⟨_, rfl⟩ | ⟨_, files, _, rfl⟩
  case inl => simp
  case inr => exact fun c hc => ((mem_scan ht).mp hc).earns

-- A scan gives a line the score that the line has by itself, unless the text is blank and the line
-- would score if it were not. So what is found scores, unless a blank text is searched for, which can
-- happen if texts of any length are. Then what is found are the lines that would score enough, and
-- none of them does.
theorem found_scores_iff (r : Resolver) (fs : Files) (text : Text) :
    (∀ line w, Score.ofLowered line (trim text) (lowercase (trim text)) w =
        Score.ofLine line text w ↔
      (∃ c ∈ text, isBlank c = false) ∨ Score.ofContaining (Comment.strip line) [] w = 0) ∧
    (∀ cancelled found, (r.search fs text cancelled).1 = .ok found →
      ((∀ c ∈ found, Earns fs r.settings.weights text c) ↔
        (∃ c ∈ text, isBlank c = false) ∨ found = []) ∧
      (0 < r.settings.minSearchLen → ∀ c ∈ found, Earns fs r.settings.weights text c)) ∧
    (r.settings.minSearchLen = 0 → (∀ c ∈ text, isBlank c = true) →
      ∀ files, (r.sources fs).1 = .ok files → ∃ found,
        (r.search fs text false).1 = .ok found ∧ ∀ c, c ∈ found ↔
          files[c.fileIndex]? = some c.file ∧
          (∃ t line, fs.read c.file = .ok t ∧ (lines t)[c.line]? = some line ∧
            c.score = Score.ofContaining (Comment.strip line) [] r.settings.weights) ∧
          max r.settings.minScore 1 ≤ c.score) := by
  simp only [← trim_ne_nil_iff, ← trim_eq_nil_iff]
  refine ⟨fun line w => ?score, fun cancelled found h => ⟨?found, fun hl => ?long⟩, ?blank⟩
  case score =>
    by_cases ht : trim text = []
    case pos => rw [ht, Score.ofLowered_blank, Score.ofLine_blank ht]; simp
    case neg => simp [Score.ofLowered_eq line ht w, ht]
  case found =>
    constructor
    case mp  =>
      refine fun he => or_iff_not_imp_left.mpr fun ht => ?_
      have ht : trim text = [] := not_not.mp ht
      exact List.eq_nil_iff_forall_not_mem.mpr fun c hc => not_earns_blank ht (he c hc)
    case mpr =>
      rintro (ht | rfl)
      case inl => exact earns_of_search ht h
      case inr => simp
  case long =>
    by_cases ht : trim text = []
    case neg => exact earns_of_search ht h
    case pos =>
      have hs : (trim text).length < r.settings.minSearchLen := by simpa [ht] using hl
      rw [search_short hs] at h
      obtain rfl := Except.ok.inj h
      simp
  case blank =>
    intro hl ht files hf
    have hs : r.sources fs = (.ok files, (r.sources fs).2) := by rw [← hf]
    have hl : r.settings.minSearchLen ≤ (trim text).length := by omega
    refine ⟨_, congrArg Prod.fst (search_long hl hs false), fun c => ?_⟩
    simp only [ht, mem_scan_iff, Score.ofLowered_blank]

-- A blank text is found in a line that does not score for it.
theorem found_blank :
    let file : FilePath := ⟨['a']⟩
    let fs : Files := ⟨.dir [(['a'], .file "x".toUTF8)], []⟩
    let r : Resolver := ⟨file, { Settings.default.search with minSearchLen := 0 }, some [file], 0⟩
    (r.search fs [' ', ' '] false).1 = .ok [⟨0, file, 0, 10⟩] ∧
      (fs.read file).toOption = some ['x'] ∧ (lines ['x'])[0]? = some ['x'] ∧
      Score.ofLine ['x'] [' ', ' '] r.settings.weights = 0 := by
  intro file fs r
  have hs : (r.search fs [' ', ' '] false).1 = .ok (scan fs r.settings [] [file]) :=
    congrArg Prod.fst <| search_long (r := r) (Nat.zero_le _) rfl false
  have hh : hits fs r.settings [] 0 file = [⟨0, file, 0, 10⟩] := by decide +kernel
  refine ⟨?_, by decide +kernel, by decide +kernel, by decide +kernel⟩
  rw [hs]
  simp [scan, hh, Score.rank]

-- The same line for its own text, and for a blank text where texts of any length are searched for and
-- where they are not.
theorem found_scores_iff_blank :
    let file : FilePath := ⟨['a']⟩
    let fs : Files := ⟨.dir [(['a'], .file "x".toUTF8)], []⟩
    let r (n : Nat) : Resolver :=
      ⟨file, { Settings.default.search with minSearchLen := n }, some [file], 0⟩
    (∃ found, ((r 0).search fs [' ', 'x'] false).1 = .ok found ∧
      ∀ c ∈ found, Earns fs (r 0).settings.weights [' ', 'x'] c) ∧
    (∃ found, ((r 0).search fs [' '] false).1 = .ok found ∧ ⟨0, file, 0, 10⟩ ∈ found) ∧
    ∃ found, ((r 1).search fs [' '] false).1 = .ok found ∧
      ∀ c ∈ found, Earns fs (r 1).settings.weights [' '] c := by
  intro file fs r
  have ⟨_, found, _⟩ := found_scores_iff (r 0) fs [' ', 'x']
  have ⟨_, _, blank⟩ := found_scores_iff (r 0) fs [' ']
  have ⟨_, short, _⟩ := found_scores_iff (r 1) fs [' ']
  have hs : ((r 0).search fs [' ', 'x'] false).1 =
      .ok (scan fs (r 0).settings (trim [' ', 'x']) [file]) :=
    congrArg Prod.fst <| search_long (r := r 0) (Nat.zero_le _) rfl false
  have hs' : ((r 1).search fs [' '] false).1 = .ok [] :=
    congrArg Prod.fst <| search_short (r := r 1) (by decide +kernel)
  obtain ⟨l, hl, hm⟩ := blank rfl (by decide) [file] rfl
  refine ⟨⟨_, hs, (found false _ hs).1.mpr (.inl ⟨'x', by decide, by decide⟩)⟩,
    ⟨l, hl, (hm _).mpr ⟨rfl, ⟨['x'], ['x'], ?_, rfl, by decide +kernel⟩, by decide +kernel⟩⟩,
    ⟨_, hs', (short false _ hs').2 (by decide)⟩⟩
  rfl

end Resolver

end LogOrigin
