import LogOrigin.Proofs.Lists
import LogOrigin.Proofs.Text.Blank
import LogOrigin.Source.Usage

-- The lines that use a name are those in which it is a word of its own somewhere.

namespace LogOrigin

open Text

namespace Usage

variable {name code s r : Text} {before : Option Char} {fs : Files} {file : FilePath} {line : Nat}
variable {files : List FilePath} {u : Usage}

-- A name between `s` and `r`, where no character of a word is next to it. In front of `s` there may
-- be another character.
structure IsWordAt (name : Text) (before : Option Char) (code s r : Text) : Prop where
  code  : code = s ++ (name ++ r)
  front : (s.getLast?.or before).any isWord = false
  back  : r.head?.any isWord = false

-- A name is a word of its own somewhere in a text.
def HasWord (name code : Text) : Prop :=
  ∃ s r, IsWordAt name none code s r

theorem IsWordAt.cons_iff {c d : Char} : IsWordAt name before (c :: code) (d :: s) r ↔
    c = d ∧ IsWordAt name (some c) code s r := by
  have hl := Lists.getLast?_cons_or d before s
  constructor
  case mp  =>
    rintro ⟨hc, hf, hb⟩
    obtain ⟨rfl, hs⟩ := List.cons.inj hc
    exact ⟨rfl, hs, hl ▸ hf, hb⟩
  case mpr =>
    rintro ⟨rfl, hc, hf, hb⟩
    exact ⟨by rw [hc, List.cons_append], hl ▸ hf, hb⟩

theorem occurs_nil (name : Text) (before : Option Char) : occurs name before [] =
    (dropLead? name []).any fun r =>
      isBoundary before ([] : Text).head? && isBoundary (name.getLast?.or before) r.head? := by
  rw [occurs]
  cases dropLead? name [] <;> simp

theorem occurs_cons (name : Text) (before : Option Char) (c : Char) (code : Text) :
    occurs name before (c :: code) =
      ((dropLead? name (c :: code)).any (fun r =>
        isBoundary before (c :: code).head? && isBoundary (name.getLast?.or before) r.head?) ||
          occurs name (some c) code) := by
  rw [occurs]
  cases dropLead? name (c :: code) <;> simp

section Word

variable (hn : name ≠ []) (hw : ∀ c ∈ name, isWord c = true)

include hn hw

-- The name at the front of a text.
theorem starts_iff : (dropLead? name code).any (fun r =>
    isBoundary before code.head? && isBoundary (name.getLast?.or before) r.head?) = true ↔
      ∃ r, IsWordAt name before code [] r := by
  rw [Option.any_eq_true]
  refine exists_congr fun r => ?_
  rw [dropLead?_eq_some]
  constructor
  case mp  =>
    rintro ⟨rfl, h⟩
    obtain ⟨hf, hb⟩ := (boundaries_iff hn hw before r).mp h
    exact ⟨rfl, hf, hb⟩
  case mpr =>
    rintro ⟨rfl, hf, hb⟩
    exact ⟨rfl, (boundaries_iff hn hw before r).mpr ⟨hf, hb⟩⟩

-- The name is looked for at the front of the code and then behind its first character, so that a
-- longer word hides nothing that comes after it.
theorem occurs_iff : occurs name before code = true ↔ ∃ s r, IsWordAt name before code s r := by
  induction code generalizing before
  case nil            =>
    rw [occurs_nil, starts_iff hn hw]
    constructor
    case mp  => exact fun h => ⟨[], h⟩
    case mpr =>
      rintro ⟨s, r, h⟩
      obtain ⟨rfl, _⟩ := List.append_eq_nil_iff.mp h.code.symm
      exact ⟨r, h⟩
  case cons c code hi =>
    rw [occurs_cons, Bool.or_eq_true, starts_iff hn hw, hi]
    constructor
    case mp  =>
      rintro (h | ⟨s, r, h⟩)
      case inl => exact ⟨[], h⟩
      case inr => exact ⟨c :: s, r, IsWordAt.cons_iff.mpr ⟨rfl, h⟩⟩
    case mpr =>
      rintro ⟨_ | ⟨d, s⟩, r, h⟩
      case nil  => exact .inl ⟨r, h⟩
      case cons => exact .inr ⟨s, r, (IsWordAt.cons_iff.mp h).2⟩

end Word

-- A line of a readable file that is no import and whose code, without a comment at its end, has the
-- name as a word of its own.
def Uses (fs : Files) (name : Text) (u : Usage) : Prop :=
  ∃ t line, fs.read u.file = .ok t ∧ (lines t)[u.line]? = some line ∧
    Statement.isImport line = false ∧ HasWord name (Comment.strip line)

theorem pairwise_linesOf (name t : Text) : (linesOf name t).Pairwise (· < ·) :=
  List.pairwise_map.mpr <| (Lists.zipIdx_increasing (lines t)).filter _

theorem pairwise_ofFile (fs : Files) (name : Text) (file : FilePath) :
    (ofFile fs name file).Pairwise fun u v => u.line < v.line := by
  unfold ofFile
  split
  case h_1 t _ => exact List.pairwise_map.mpr <| pairwise_linesOf name t
  case h_2     => exact .nil

theorem file_of_mem_ofFile (h : u ∈ ofFile fs name file) : u.file = file := by
  unfold ofFile at h
  split at h
  case h_1 =>
    obtain ⟨_, _, rfl⟩ := List.mem_map.mp h
    rfl
  case h_2 => cases h

theorem count_ofFile_le (fs : Files) (name : Text) (file : FilePath) (u : Usage) :
    (ofFile fs name file).count u ≤ [file].count u.file := by
  by_cases hf : u.file = file
  case pos =>
    have hd : (ofFile fs name file).Nodup :=
      (pairwise_ofFile fs name file).imp fun hl he => Nat.ne_of_lt hl (congrArg line he)
    simpa [hf] using List.nodup_iff_count_le_one.mp hd u
  case neg =>
    rw [List.count_eq_zero.mpr fun h => hf (file_of_mem_ofFile h)]
    exact Nat.zero_le _

theorem ofFile_of_not_isOk (h : (fs.read file).isOk = false) : ofFile fs name file = [] := by
  unfold ofFile
  split
  case h_1 hr =>
    rw [hr] at h
    cases h
  case h_2    => rfl

-- No line is reported more often than its file is given.
theorem count_ofFiles_le (fs : Files) (name : Text) (files : List FilePath) (u : Usage) :
    (ofFiles fs name files).count u ≤ files.count u.file := by
  refine ((List.take_sublist ..).count_le u).trans ?_
  induction files
  case nil                => simp
  case cons file files hi =>
    rw [List.flatMap_cons, List.count_append, ← List.singleton_append, List.count_append]
    exact Nat.add_le_add (count_ofFile_le fs name file u) hi

-- Files that cannot be read change nothing.
theorem ofFiles_filter_isOk (fs : Files) (name : Text) (files : List FilePath) :
    ofFiles fs name (files.filter fun file => (fs.read file).isOk) = ofFiles fs name files := by
  refine congrArg (List.take limit) ?_
  induction files
  case nil                => rfl
  case cons file files hi =>
    cases hr : (fs.read file).isOk
    case true  => rw [List.filter_cons, if_pos hr, List.flatMap_cons, List.flatMap_cons, hi]
    case false =>
      rw [List.filter_cons, if_neg (by simp [hr]), List.flatMap_cons, ofFile_of_not_isOk hr,
        List.nil_append, hi]

-- All usages, with the places of their files in the list of files.
def places (fs : Files) (name : Text) (files : List FilePath) : List (Nat × Usage) :=
  files.zipIdx.flatMap fun f => (ofFile fs name f.1).map (f.2, ·)

theorem ofFiles_eq_take_places (fs : Files) (name : Text) (files : List FilePath) :
    ofFiles fs name files = ((places fs name files).take limit).map (·.2) := by
  have hf (f : FilePath × Nat) :
      ((ofFile fs name f.1).map (f.2, ·)).map (·.2) = ofFile fs name f.1 := by simp
  simp only [ofFiles, places, List.map_take, List.map_flatMap, hf]
  rw [← List.flatMap_map Prod.fst, List.zipIdx_map_fst]

theorem pairwise_places (fs : Files) (name : Text) (files : List FilePath) :
    (places fs name files).Pairwise fun p q =>
      p.1 < q.1 ∨ p.1 = q.1 ∧ p.2.line < q.2.line := by
  rw [places, List.pairwise_flatMap]
  constructor
  case left  =>
    rintro ⟨file, i⟩ _
    exact List.pairwise_map.mpr <| (pairwise_ofFile fs name file).imp fun h => .inr ⟨rfl, h⟩
  case right =>
    refine (Lists.zipIdx_increasing files).imp fun h p hp q hq => ?_
    obtain ⟨_, _, rfl⟩ := List.mem_map.mp hp
    obtain ⟨_, _, rfl⟩ := List.mem_map.mp hq
    exact .inl h

section Word

variable (hn : name ≠ []) (hw : ∀ c ∈ name, isWord c = true)

include hn hw

theorem isUsage_iff {line : Text} : isUsage name line = true ↔
    Statement.isImport line = false ∧ HasWord name (Comment.strip line) := by
  rw [isUsage, Bool.and_eq_true, occurs_iff hn hw, Bool.not_eq_true', and_comm, HasWord]

theorem mem_linesOf {t : Text} {n : Nat} : n ∈ linesOf name t ↔ ∃ line, (lines t)[n]? = some line ∧
    Statement.isImport line = false ∧ HasWord name (Comment.strip line) := by
  simp only [linesOf, List.mem_map, List.mem_filter, List.mem_zipIdx_iff_getElem?,
    isUsage_iff hn hw, Prod.exists, exists_eq_right]

theorem mem_ofFile : u ∈ ofFile fs name u.file ↔ Uses fs name u := by
  obtain ⟨file, n⟩ := u
  cases hr : fs.read file
  case error => simp [ofFile, Uses, hr]
  case ok t  => simp [ofFile, Uses, hr, mem_linesOf hn hw]

theorem mem_places {i : Nat} :
    (i, u) ∈ places fs name files ↔ files[i]? = some u.file ∧ Uses fs name u := by
  constructor
  case mp  =>
    intro h
    obtain ⟨⟨file, j⟩, hf, h⟩ := List.mem_flatMap.mp h
    obtain ⟨v, hv, he⟩ := List.mem_map.mp h
    cases he
    obtain rfl := file_of_mem_ofFile hv
    exact ⟨List.mem_zipIdx_iff_getElem?.mp hf, (mem_ofFile hn hw).mp hv⟩
  case mpr =>
    rintro ⟨hi, h⟩
    exact List.mem_flatMap.mpr ⟨(u.file, i), List.mem_zipIdx_iff_getElem?.mpr hi,
      List.mem_map.mpr ⟨u, (mem_ofFile hn hw).mpr h, rfl⟩⟩

-- The reported usages are the first ones, in the order of the files and of their lines, of all the
-- lines that use the name.
theorem ofFiles_eq_take_uses (fs : Files) (files : List FilePath) :
    ∃ places : List (Nat × Usage),
      (places.Pairwise fun p q => p.1 < q.1 ∨ p.1 = q.1 ∧ p.2.line < q.2.line) ∧
      (∀ i u, (i, u) ∈ places ↔ files[i]? = some u.file ∧ Uses fs name u) ∧
      ofFiles fs name files = (places.take 200).map (·.2) ∧
      (∀ u, (ofFiles fs name files).count u ≤ files.count u.file) ∧
      ofFiles fs name (files.filter fun file => (fs.read file).isOk) = ofFiles fs name files :=
  ⟨places fs name files, pairwise_places fs name files, fun _ _ => mem_places hn hw,
    ofFiles_eq_take_places fs name files, count_ofFiles_le fs name files,
    ofFiles_filter_isOk fs name files⟩

end Word

-- An import, a longer word in front of the name, the name behind a comment sign, a file that is not
-- there, and a file that is given twice.
theorem ofFiles_eq_take_uses_mixed :
    let fs : Files := ⟨.dir [
      (['a'], .file "use run;\nrun_all(); run()\n// run\n".toUTF8),
      (['b'], .file "é(run)\nrun2()\n".toUTF8)], []⟩
    let files : List FilePath := [⟨"/b".toList⟩, ⟨"/c".toList⟩, ⟨"/a".toList⟩, ⟨"/b".toList⟩]
    ofFiles fs "run".toList files =
      [⟨⟨"/b".toList⟩, 0⟩, ⟨⟨"/a".toList⟩, 1⟩, ⟨⟨"/b".toList⟩, 0⟩] ∧
    ∃ places : List (Nat × Usage),
      (∀ i u, (i, u) ∈ places ↔ files[i]? = some u.file ∧ Uses fs "run".toList u) ∧
      ofFiles fs "run".toList files = (places.take 200).map (·.2) := by
  intro fs files
  have hw : ∀ c ∈ "run".toList, isWord c = true := by decide
  obtain ⟨places, _, hm, he, _⟩ := ofFiles_eq_take_uses (by decide) hw fs files
  exact ⟨by decide +kernel, places, hm, he⟩

end Usage

end LogOrigin
