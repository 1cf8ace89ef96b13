import LogOrigin.Files.Basic
import LogOrigin.Proofs.Files.Path
import LogOrigin.Proofs.Text.KeyMap

-- Trees as a file system has them, where every name leads to one entry, and the paths that lead
-- through them.

namespace LogOrigin

-- A name that an entry of a directory can have.
structure IsEntryName (t : Text) : Prop where
  named : FilePath.ofSegment t = some (.name t)
  slash : '/' ∉ t
  nul   : '\x00' ∉ t
  short : Text.byteSize t ≤ Entry.maxNameBytes

theorem IsEntryName.isVoid {t : Text} (h : IsEntryName t) : FilePath.isVoid t = false := by
  refine Bool.eq_false_iff.mpr fun hv => ?_
  cases h.named.symm.trans (FilePath.ofSegment_void hv)

namespace Entry

-- Every name in a directory can be the name of an entry, and is the name of one entry only.
inductive Sound : Entry → Prop where
  | file {bytes : ByteArray} : Sound (file bytes)
  | dir {entries : List (Text × Entry)} :
    KeyMap.Sorted entries → (∀ x ∈ entries, IsEntryName x.1) → (∀ x ∈ entries, Sound x.2) →
    Sound (dir entries)

namespace Sound

variable {e d : Entry} {entries : List (Text × Entry)} {names : List Text} {name : Text}

theorem empty : Sound .empty :=
  .dir .nil nofun nofun

theorem asDir (h : Sound e) : Sound e.asDir := by
  cases h
  case file         => exact empty
  case dir hs hn he => exact .dir hs hn he

theorem insert (h : Sound (.dir entries)) (hn : IsEntryName name) (he : Sound e) :
    Sound (.dir (KeyMap.insert name e entries)) := by
  cases h with | dir hs hns hes =>
  refine .dir (hs.insert name e) ?_ ?_ <;> intro x hx
  all_goals rcases KeyMap.mem_insert hx with rfl | hx
  · exact hn
  · exact hns x hx
  · exact he
  · exact hes x hx

theorem get? (h : Sound (.dir entries)) (he : KeyMap.get? name entries = some e) : Sound e := by
  cases h with | dir _ _ hes => exact hes _ (KeyMap.mem_of_get? he)

theorem changeAt {f : Entry → Entry} (hf : ∀ e, Sound e → Sound (f e))
    (hn : ∀ n ∈ names, IsEntryName n) (h : Sound e) : Sound (Entry.changeAt f names e) := by
  induction names generalizing e
  case nil               => exact hf e h
  case cons name names hi =>
    have ⟨hn, hns⟩ := List.forall_mem_cons.mp hn
    cases e
    case file        => exact empty.insert hn (hi hns empty)
    case dir entries =>
      refine h.insert hn (hi hns ?_)
      cases hg : KeyMap.get? name entries
      case none   => exact empty
      case some d => exact h.get? hg

theorem erase (hn : ∀ n ∈ names, IsEntryName n) (h : Sound e) : Sound (Entry.erase names e) := by
  induction names generalizing e
  case nil                => exact h
  case cons name names hi =>
    have ⟨hm, hns⟩ := List.forall_mem_cons.mp hn
    cases e
    case file        => cases names <;> exact h
    case dir entries =>
      cases names
      case nil  =>
        cases h with | dir hs hn he =>
        have hl := KeyMap.erase_sublist name entries
        exact .dir (hs.sublist hl) (fun x hx => hn x (hl.subset hx)) fun x hx => he x (hl.subset hx)
      case cons =>
        unfold Entry.erase
        split
        case h_1 d hg => exact h.insert hm (hi hns (h.get? hg))
        case h_2      => exact h

end Sound

variable {above : List Entry} {e d : Entry} {l l' : List Text}

theorem Sound.follow (ha : ∀ d ∈ above, Sound d) (h : Sound e)
    (hf : Entry.follow above e l = .ok d) : Sound d := by
  induction l generalizing above e
  case nil         =>
    cases hf
    exact h
  case cons s l hi =>
    cases e
    case file        => cases hf
    case dir entries =>
      simp only [Entry.follow] at hf
      split at hf
      case isTrue  => exact hi ha h hf
      case isFalse =>
        split at hf
        case isTrue  =>
          cases above
          case nil  => exact hi (List.forall_mem_nil _) h hf
          case cons =>
            have ⟨hd, ha⟩ := List.forall_mem_cons.mp ha
            exact hi ha hd hf
        case isFalse =>
          split at hf
          case isTrue  => cases hf
          case isFalse =>
            split at hf
            case h_1 hg => exact hi (List.forall_mem_cons.mpr ⟨h, ha⟩) (h.get? hg) hf
            case h_2    => cases hf

-- A way that leads somewhere may be followed in two parts.
theorem exists_follow_append (h : follow above e (l ++ l') = .ok d) :
    ∃ above' d', ∀ k, follow above e (l ++ k) = follow above' d' k := by
  induction l generalizing above e
  case nil         => exact ⟨above, e, fun _ => rfl⟩
  case cons s l hi =>
    rw [List.cons_append] at h
    simp only [List.cons_append]
    cases e
    case file        => cases h
    case dir entries =>
      simp only [follow] at h ⊢
      split at h
      case isTrue hv  =>
        simp only [if_pos hv]
        exact hi h
      case isFalse hv =>
        simp only [if_neg hv]
        split at h
        case isTrue hp  =>
          simp only [if_pos hp]
          cases above <;> exact hi h
        case isFalse hp =>
          simp only [if_neg hp]
          split at h
          case isTrue     => cases h
          case isFalse hl =>
            simp only [if_neg hl]
            split at h
            case h_1 => exact hi h
            case h_2 => cases h

-- Void segments lead from a directory to itself, and from a file nowhere.
theorem follow_void {s : Text} (hs : FilePath.isVoid s) (h : follow above e [s] = .ok d) :
    e = d ∧ d.isDir := by
  cases e
  case file => cases h
  case dir  =>
    simp only [follow, if_pos hs] at h
    cases h
    exact ⟨rfl, rfl⟩

theorem follow_name {entries : List (Text × Entry)} {name : Text} (hn : IsEntryName name)
    (he : KeyMap.get? name entries = some e) : follow above (dir entries) [name] = .ok e := by
  have hp : name ≠ ['.', '.'] := by
    rintro rfl
    cases hn.named
  simp [follow, hn.isVoid, hp, Nat.not_lt.mpr hn.short, he]

end Entry

namespace Files

variable {fs : Files} {p dir : FilePath} {e : Entry} {entries : List (Text × Entry)} {name : Text}

-- A path leads to an entry, or would if it were not too long.
structure Leads (fs : Files) (p : FilePath) (e : Entry) : Prop where
  nul    : '\x00' ∉ p.text
  text   : p.text ≠ []
  follow : Entry.follow [] fs.tree ((if p.isAbsolute then [] else fs.current) ++ p.segments) = .ok e

theorem find_ok_iff : fs.find p = .ok e ↔ p.isTooLong = false ∧ Leads fs p e := by
  unfold find
  split
  case isTrue hn  =>
    refine iff_of_false nofun fun h => h.2.nul ?_
    simpa using hn
  case isFalse hn =>
    split
    case isTrue hl  => exact iff_of_false nofun (by simp [hl])
    case isFalse hl =>
      split
      case isTrue ht  => exact iff_of_false nofun fun h => h.2.text (List.isEmpty_iff.mp ht)
      case isFalse ht =>
        have hf : (if p.isAbsolute then Entry.follow [] fs.tree p.segments
            else Entry.follow [] fs.tree (fs.current ++ p.segments)) =
            Entry.follow [] fs.tree ((if p.isAbsolute then [] else fs.current) ++ p.segments) := by
          cases p.isAbsolute <;> rfl
        rw [hf]
        constructor
        case mp  => exact fun h => ⟨by simpa using hl, by simpa using hn, by simpa using ht, h⟩
        case mpr => exact fun h => h.2.follow

theorem sound_of_find (hs : fs.tree.Sound) (h : fs.find p = .ok e) : e.Sound :=
  Entry.Sound.follow (List.forall_mem_nil _) hs (find_ok_iff.mp h).2.follow

theorem isFile_iff : fs.isFile p ↔ p.isTooLong = false ∧ ∃ bytes, Leads fs p (.file bytes) := by
  unfold isFile
  split
  case h_1 b h =>
    obtain ⟨hl, h⟩ := find_ok_iff.mp h
    exact iff_of_true rfl ⟨hl, b, h⟩
  case h_2 h   =>
    refine iff_of_false nofun ?_
    rintro ⟨hl, b, hb⟩
    exact h b (find_ok_iff.mpr ⟨hl, hb⟩)

-- A file is not found behind a trailing slash or dot.
theorem getLast_segments (h : fs.isFile p) {s : Text} (hs : p.segments.getLast? = some s) :
    FilePath.isVoid s = false := by
  obtain ⟨_, bytes, hl⟩ := isFile_iff.mp h
  obtain ⟨l, hl'⟩ := List.getLast?_eq_some_iff.mp hs
  have hf := hl.follow
  rw [hl', ← List.append_assoc] at hf
  obtain ⟨above, d, hk⟩ := Entry.exists_follow_append hf
  rw [hk] at hf
  cases hv : FilePath.isVoid s
  case false => rfl
  case true  => cases (Entry.follow_void hv hf).2

theorem Leads.join (h : Leads fs dir (.dir entries)) (hn : IsEntryName name)
    (he : KeyMap.get? name entries = some e) : Leads fs (dir.join ⟨name⟩) e := by
  have hr : (⟨name⟩ : FilePath).isAbsolute = false := FilePath.isAbsolute_of_notMem hn.slash
  obtain ⟨l, _, hl, hj⟩ := FilePath.exists_segments_join h.text
  have hd : ∃ above, ∀ k, Entry.follow [] fs.tree
      ((if dir.isAbsolute then [] else fs.current) ++ l ++ k) =
      Entry.follow above (.dir entries) k := by
    have hf := h.follow
    rcases hl with hl | hl
    case inl =>
      rw [hl, ← List.append_nil (_ ++ l)] at hf
      obtain ⟨above, d, hk⟩ := Entry.exists_follow_append hf
      rw [hk] at hf
      cases hf
      exact ⟨above, hk⟩
    case inr =>
      rw [hl, ← List.append_assoc] at hf
      obtain ⟨above, d, hk⟩ := Entry.exists_follow_append hf
      rw [hk] at hf
      obtain ⟨rfl, _⟩ := Entry.follow_void rfl hf
      exact ⟨above, hk⟩
  obtain ⟨above, hk⟩ := hd
  constructor
  case nul    =>
    unfold FilePath.join
    split
    case isTrue  => exact hn.nul
    case isFalse => split <;> simp [h.nul, hn.nul]
  case text   =>
    unfold FilePath.join
    split
    case isTrue  =>
      rintro rfl
      cases hn.named
    case isFalse => split <;> simp [h.text]
  case follow =>
    rw [FilePath.isAbsolute_join_eq h.text hr, hj _ hr, FilePath.segments_of_notMem hn.slash,
      ← List.append_assoc, hk]
    exact Entry.follow_name hn he

end Files

end LogOrigin
