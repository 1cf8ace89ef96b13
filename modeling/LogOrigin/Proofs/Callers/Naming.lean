import LogOrigin.Proofs.Callers.Assignment
import LogOrigin.Oracle.Lexical
import Mathlib.Data.List.Infix

-- Whether the entries of a ranking are about the call sites that they name: those of the lexical
-- oracle are, those of a reply with relative paths if nothing else can be taken for what they name.

namespace LogOrigin

open Classical

namespace FilePath

variable {p q : FilePath}

theorem components_absolute (h : p.isAbsolute = true) :
    ∃ l, p.components = .root :: l := by
  have ht : p.text.head? = some '/' := by simpa [isAbsolute] using h
  obtain ⟨t, ht⟩ := List.head?_eq_some_iff.mp ht
  have hs : p.segments = [] :: Text.splitOn '/' t := by
    rw [segments, ht]
    simp [Text.splitOn, Text.splitOn.go]
  refine ⟨(Text.splitOn '/' t).filterMap ofSegment, ?_⟩
  rw [components, hs]
  simp [h]

theorem root_notMem_ofSegment (l : List Text) : Component.root ∉ l.filterMap ofSegment := by
  intro h
  obtain ⟨s, _, hs⟩ := List.mem_filterMap.mp h
  unfold ofSegment at hs
  split at hs
  case isTrue  => cases hs
  case isFalse => split at hs <;> cases hs

-- The root of the file system stands at the front of a path only.
theorem root_notMem_tail (p : FilePath) : Component.root ∉ p.components.tail := by
  unfold components
  split
  case h_1     => simp
  case h_2 s l _ =>
    split
    case isTrue  => exact root_notMem_ofSegment l
    case isFalse =>
      split
      case isTrue  => exact root_notMem_ofSegment l
      case isFalse => exact fun h => root_notMem_ofSegment (s :: l) <| List.mem_of_mem_tail h

theorem text_ne_nil (h : p.components ≠ []) : p.text ≠ [] := by
  intro ht
  refine h ?_
  rw [show p = ⟨[]⟩ from congrArg FilePath.mk ht]
  rfl

-- An absolute path is the end of no other one.
theorem components_eq_of_suffix (hp : p.isAbsolute = true)
    (h : p.components <:+ q.components) : p.components = q.components := by
  obtain ⟨l, hp⟩ := components_absolute hp
  obtain ⟨s, hs⟩ := h
  cases s
  case nil      => exact hs
  case cons a s =>
    have hr := root_notMem_tail q
    rw [← hs, hp] at hr
    exact absurd (by simp) hr

end FilePath

def CallCandidate.key (c : CallCandidate) : CallerKey :=
  ⟨c.file.components, c.line⟩

namespace Ranking

variable {N : RankedCall → CallCandidate → Prop} {candidates l l' rest : List CallCandidate}
variable {ranked earlier later : List RankedCall} {r : RankedCall} {b c : CallCandidate}
variable {claims : List Claim} {n : CallerNode}

-- A ranking in which each entry names one call site of its own, and gives its place.
structure Names (N : RankedCall → CallCandidate → Prop) (candidates : List CallCandidate)
    (ranked : List RankedCall) : Prop where
  distinct : candidates.Nodup
  exists_named : ∀ r ∈ ranked, ∃ c ∈ candidates, N r c
  inPlace : ∀ r ∈ ranked, ∀ c ∈ candidates, N r c → InPlace r c
  unique : ∀ r ∈ ranked, ∀ b ∈ candidates, ∀ c ∈ candidates, N r b → N r c → b = c
  once : ranked.Pairwise fun r e => ∀ c ∈ candidates, N r c → ¬N e c

-- What entries have not named.
noncomputable def unnamed (N : RankedCall → CallCandidate → Prop) (candidates : List CallCandidate)
    (entries : List RankedCall) : List CallCandidate :=
  candidates.filter fun c => ∀ e ∈ entries, ¬N e c

-- Whatever stands before the call site that an entry names, and could be taken for it, has been named
-- by earlier entries.
def Clear (N : RankedCall → CallCandidate → Prop) (candidates : List CallCandidate)
    (earlier : List RankedCall) (r : RankedCall) : Prop :=
  ∀ b c, [b, c].Sublist candidates → N r c → InPlace r b → ∃ e ∈ earlier, N e b

-- This holds of all entries of the rest of a ranking.
def AllClear (N : RankedCall → CallCandidate → Prop) (candidates : List CallCandidate)
    (earlier ranked : List RankedCall) : Prop :=
  ∀ passed r later, ranked = passed ++ r :: later → Clear N candidates (earlier ++ passed) r

theorem allClear_nil : AllClear N candidates earlier [] := by
  intro passed r later h
  simp at h

theorem allClear_cons : AllClear N candidates earlier (r :: later) ↔
    Clear N candidates earlier r ∧ AllClear N candidates (earlier ++ [r]) later := by
  constructor
  case mp  =>
    intro h
    refine ⟨by simpa using h [] r later rfl, fun passed e rest he => ?_⟩
    simpa using h (r :: passed) e rest (by simp [he])
  case mpr =>
    rintro ⟨hr, hl⟩ passed e rest he
    cases passed
    case nil        =>
      cases he
      simpa using hr
    case cons _ passed =>
      cases he
      simpa using hl passed e rest rfl

theorem pair_sublist_iff {α : Type} {a b : α} {before after : List α} (h : b ∉ before ++ after) :
    [a, b].Sublist (before ++ b :: after) ↔ a ∈ before := by
  induction before
  case nil =>
    simp only [List.nil_append] at h ⊢
    refine iff_of_false (fun hs => ?_) List.not_mem_nil
    cases hs
    case cons hs      => exact h <| hs.mem (by simp)
    case cons_cons hs => exact h <| hs.mem (by simp)
  case cons x before hi =>
    simp only [List.cons_append, List.mem_cons, not_or] at h ⊢
    constructor
    case mp  =>
      intro hs
      cases hs
      case cons hs      => exact .inr <| (hi h.2).mp hs
      case cons_cons _  => exact .inl rfl
    case mpr =>
      rintro (rfl | ha)
      case inl => exact .cons_cons _ <| List.singleton_sublist.mpr <| by simp
      case inr => exact .cons _ <| (hi h.2).mpr ha

section Next

variable {before after : List CallCandidate}

-- The call site that an entry names is what is missing after its turn.
theorem Names.unnamed_next (h : Names N (before ++ c :: after) (earlier ++ r :: later))
    (hc : N r c) :
    unnamed N (before ++ c :: after) earlier =
      unnamed N before earlier ++ c :: unnamed N after earlier ∧
    unnamed N (before ++ c :: after) (earlier ++ [r]) =
      unnamed N before earlier ++ unnamed N after earlier := by
  have hn : ∀ e ∈ earlier, ¬N e c := fun e he hx =>
    (List.pairwise_append.mp h.once).2.2 e he r (by simp) c (by simp) hx hc
  have hd : c ∉ before ++ after := (List.nodup_cons.mp <| List.nodup_middle.mp h.distinct).1
  have others (l : List CallCandidate) (hl : l ⊆ before ++ after) :
      unnamed N l (earlier ++ [r]) = unnamed N l earlier := by
    refine List.filter_congr fun b hb => ?_
    have hb' : ¬N r b := by
      intro hn
      have hm : b ∈ before ++ c :: after :=
        (List.sublist_cons_self c after).append_left before |>.mem (hl hb)
      exact hd <| h.unique r (by simp) b hm c (by simp) hn hc ▸ hl hb
    simp [or_imp, forall_and, hb']
  constructor
  case left  =>
    rw [unnamed, List.filter_append, List.filter_cons_of_pos (by simpa using hn)]
    rfl
  case right =>
    rw [unnamed, List.filter_append, List.filter_cons_of_neg (by simp [hc])]
    exact congrArg₂ _ (others before (by simp)) (others after (by simp))

-- An entry claims the call site that it names if nothing else can be taken for it, else another one.
theorem Names.next (h : Names N candidates (earlier ++ r :: later)) :
    (Clear N candidates earlier r ∧ ∃ c ∈ candidates, N r c ∧
      Claims r (unnamed N candidates earlier) (some (c, unnamed N candidates (earlier ++ [r])))) ∨
    (¬Clear N candidates earlier r ∧ ∃ b ∈ candidates, ∃ l, ¬N r b ∧
      Claims r (unnamed N candidates earlier) (some (b, l))) := by
  have hr : r ∈ earlier ++ r :: later := by simp
  obtain ⟨c, hc, hn⟩ := h.exists_named r hr
  have hp := h.inPlace r hr c hc hn
  have hu := fun b hb hn' => h.unique r hr b hb c hc hn' hn
  obtain ⟨before, after, rfl⟩ := List.append_of_mem hc
  have hd := (List.nodup_cons.mp <| List.nodup_middle.mp h.distinct).1
  have ⟨hl, hl'⟩ := h.unnamed_next hn
  -- The entry claims the first call site in its place, which is the named one or stands before it.
  cases hx : extract? (agreesInPlace r) (unnamed N before earlier)
  case none   =>
    have hb := (extract?_eq_none fun _ => agreesInPlace_iff).mp hx
    refine .inl ⟨fun b c' hs hn' hp' => ?_, c, hc, hn, hl ▸ hl' ▸ .place hb hp⟩
    obtain rfl := hu c' (hs.mem (by simp)) hn'
    have hm := (pair_sublist_iff hd).mp hs
    by_contra hne
    exact hb b (List.mem_filter.mpr ⟨hm, by simpa using hne⟩) hp'
  case some x =>
    obtain ⟨s, b, t, hs, rfl, hb, hp'⟩ := exists_of_extract? (fun _ => agreesInPlace_iff) hx
    have hm : b ∈ unnamed N before earlier := by simp [hs]
    obtain ⟨hm, hne⟩ := List.mem_filter.mp hm
    have hm' : b ∈ before ++ c :: after := List.mem_append_left _ hm
    refine .inr ⟨fun hc => ?_, b, hm', s ++ (t ++ c :: unnamed N after earlier), fun hn' => ?_, ?_⟩
    case refine_1 =>
      obtain ⟨e, he, hx⟩ := hc b c ((pair_sublist_iff hd).mpr hm) hn hp'
      exact of_decide_eq_true hne e he hx
    case refine_2 => exact hd <| hu b hm' hn' ▸ List.mem_append_left _ hm
    case refine_3 =>
      rw [hl, hs, List.append_assoc, List.cons_append]
      exact .place hb hp'

end Next

-- The entries claim what they name, each one its own, or else one of them claims something else.
theorem Names.claims_iff (h : Names N candidates (earlier ++ later))
    (ha : Assigns later (unnamed N candidates earlier) claims rest) :
    (AllClear N candidates earlier later →
      claims.map (·.entry) = later ∧ ∀ x ∈ claims, x.candidate ∈ candidates ∧ N x.entry x.candidate) ∧
    (¬AllClear N candidates earlier later →
      ∃ x ∈ claims, x.entry ∈ later ∧ x.candidate ∈ candidates ∧ ¬N x.entry x.candidate) := by
  induction later generalizing earlier claims
  case nil             =>
    cases ha
    exact ⟨fun _ => by simp, absurd allClear_nil⟩
  case cons r later hi =>
    rw [allClear_cons]
    rcases h.next with ⟨hr, c, hc, hn, hx⟩ | ⟨hr, b, hb, l, hn, hx⟩
    case inl =>
      cases ha
      case passed hx' _   => cases hx.unique hx'
      case claimed hx' ha =>
        cases hx.unique hx'
        have ⟨right, wrong⟩ := hi (by simpa using h) ha
        refine ⟨fun ⟨_, hl⟩ => ?_, fun hl => ?_⟩
        case refine_1 =>
          have ⟨he, hr⟩ := right hl
          exact ⟨congrArg _ he, List.forall_mem_cons.mpr ⟨⟨hc, hn⟩, hr⟩⟩
        case refine_2 =>
          have ⟨x, hx, he, hw⟩ := wrong fun hl' => hl ⟨hr, hl'⟩
          exact ⟨x, List.mem_cons_of_mem _ hx, List.mem_cons_of_mem _ he, hw⟩
    case inr =>
      refine ⟨fun ⟨hr', _⟩ => absurd hr' hr, fun _ => ?_⟩
      cases ha
      case passed hx' _   => cases hx.unique hx'
      case claimed hx' _  =>
        cases hx.unique hx'
        exact ⟨_, List.mem_cons_self .., List.mem_cons_self .., hb, hn⟩

theorem mem_apply {x : Claim} (h : Assigns ranked candidates claims rest) (hx : x ∈ claims) :
    CallerNode.ofInfo x.info ∈ apply candidates ranked := by
  rw [apply_eq h]
  exact List.mem_append_left _ <| List.mem_map_of_mem <| List.mem_mergeSort.mpr hx

-- A call site is there once.
theorem filter_apply (hd : candidates.Nodup) (hn : n ∈ apply candidates ranked) :
    (apply candidates ranked).filter (·.info.candidate = n.info.candidate) = [n] := by
  have hp := apply_perm candidates ranked
  have hc : n.info.candidate ∈ candidates :=
    hp.mem_iff.mp <| List.mem_map_of_mem (f := fun n : CallerNode => n.info.candidate) hn
  have hl : ((apply candidates ranked).filter (·.info.candidate = n.info.candidate)).length = 1 := by
    have := hp.count_eq n.info.candidate
    rw [List.count_eq_one_of_mem hd hc, List.count, List.countP_map] at this
    rw [← List.countP_eq_length_filter, ← this]
    rfl
  obtain ⟨m, hm⟩ := List.length_eq_one_iff.mp hl
  have hn : n ∈ (apply candidates ranked).filter (·.info.candidate = n.info.candidate) :=
    List.mem_filter.mpr ⟨hn, by simp⟩
  rw [hm] at hn ⊢
  rw [List.mem_singleton.mp hn]

theorem Names.rated (h : Names N candidates ranked) :
    (AllClear N candidates [] ranked → ∀ r ∈ ranked, ∀ c ∈ candidates, N r c →
      (apply candidates ranked).filter (·.info.candidate = c) =
        [nodeOf c r.confidence r.explanation]) ∧
    (¬AllClear N candidates [] ranked → ∃ r ∈ ranked, ∃ b ∈ candidates, ¬N r b ∧
      (apply candidates ranked).filter (·.info.candidate = b) =
        [nodeOf b r.confidence r.explanation]) := by
  obtain ⟨claims, rest, ha⟩ := exists_assigns ranked candidates
  have hu : unnamed N candidates [] = candidates := by simp [unnamed]
  have ⟨right, wrong⟩ := Names.claims_iff (show Names N candidates ([] ++ ranked) from h) (hu.symm ▸ ha)
  refine ⟨fun hc r hr c hm hn => ?_, fun hc => ?_⟩
  case refine_1 =>
    have ⟨he, hr'⟩ := right hc
    obtain ⟨⟨_, b⟩, hx, rfl⟩ := List.mem_map.mp <| he.symm ▸ hr
    have ⟨hb, hn'⟩ := hr' _ hx
    obtain rfl := h.unique _ hr b hb c hm hn' hn
    exact filter_apply h.distinct <| mem_apply ha hx
  case refine_2 =>
    have ⟨⟨r, b⟩, hx, hr, hb, hn⟩ := wrong hc
    exact ⟨r, hr, b, hb, hn, filter_apply h.distinct <| mem_apply ha hx⟩

theorem eq_of_key (hd : (candidates.map CallCandidate.key).Nodup) (hb : b ∈ candidates)
    (hc : c ∈ candidates) (hf : b.file.components = c.file.components) (hl : b.line = c.line) :
    b = c :=
  List.inj_on_of_nodup_map hd hb hc <| by simp [CallCandidate.key, hf, hl]

section Lexical

variable {request : RankRequest}

-- The lexical oracle repeats the place of what it has looked at.
theorem names_lexical (ha : ∀ c ∈ request.candidates, c.file.isAbsolute = true)
    (hd : (request.candidates.map CallCandidate.key).Nodup) :
    Names (fun r c => r = Lexical.rankOne (Lexical.vocabulary request) c) request.candidates
      (Lexical.rank request) where
  distinct := hd.of_map _
  exists_named := by
    intro r hr
    obtain ⟨c, hc, rfl⟩ := List.mem_map.mp <| List.mem_mergeSort.mp hr
    exact ⟨c, hc, rfl⟩
  inPlace := by
    rintro _ _ c hc rfl
    refine ⟨rfl, fun hn => ?_, .inl List.suffix_rfl⟩
    have := ha c hc
    simp [FilePath.isAbsolute, show c.file.text = [] from hn] at this
  unique := by
    rintro _ _ b hb c hc rfl h
    have hf := congrArg RankedCall.file h
    have hl := congrArg RankedCall.line h
    exact eq_of_key hd hb hc (congrArg _ hf) hl
  once := by
    have hm : (request.candidates.map <| Lexical.rankOne (Lexical.vocabulary request)).Nodup := by
      refine .of_map (fun r : RankedCall => (⟨r.file.components, r.line⟩ : CallerKey)) ?_
      rw [List.map_map]
      exact hd
    have hm : (Lexical.rank request).Nodup := (List.mergeSort_perm ..).nodup_iff.mpr hm
    exact hm.imp fun hne c _ hr he => hne <| hr.trans he.symm

-- An absolute path is taken for the same path only.
theorem allClear_lexical (ha : ∀ c ∈ request.candidates, c.file.isAbsolute = true)
    (hd : (request.candidates.map CallCandidate.key).Nodup) :
    AllClear (fun r c => r = Lexical.rankOne (Lexical.vocabulary request) c) request.candidates []
      (Lexical.rank request) := by
  rintro passed r later - b c hs rfl hp
  have hb : b ∈ request.candidates := hs.mem (by simp)
  have hc : c ∈ request.candidates := hs.mem (by simp)
  have hf : b.file.components = c.file.components := by
    rcases hp.file with hf | hf
    case inl => exact (FilePath.components_eq_of_suffix (ha c hc) hf).symm
    case inr => exact FilePath.components_eq_of_suffix (ha b hb) hf
  obtain rfl := eq_of_key hd hb hc hf hp.line
  exact absurd hs <| List.nodup_iff_sublist.mp (hd.of_map _) b

end Lexical

theorem explanation_ne (vocabulary : List Text) (c : CallCandidate) :
    (Lexical.rankOne vocabulary c).explanation ≠ notRanked := by
  have ⟨_, ht⟩ : ∃ t, (Lexical.rankOne vocabulary c).explanation = 's' :: t := ⟨_, rfl⟩
  rw [ht]
  nofun

-- Each call site gets what the lexical oracle has found out about it, if all of them are at different
-- places and given by absolute paths. None is left without a rank.
theorem lexical_rated (request : RankRequest)
    (ha : ∀ c ∈ request.candidates, c.file.isAbsolute = true)
    (hd : (request.candidates.map CallCandidate.key).Nodup) :
    let nodes := apply request.candidates (Lexical.rank request)
    (∀ c ∈ request.candidates,
      let r := Lexical.rankOne (Lexical.vocabulary request) c
      nodes.filter (·.info.candidate = c) = [nodeOf c r.confidence r.explanation]) ∧
    ∀ n ∈ nodes, n.info.explanation ≠ notRanked := by
  intro nodes
  have hn := names_lexical ha hd
  have hc : ∀ c ∈ request.candidates,
      let r := Lexical.rankOne (Lexical.vocabulary request) c
      nodes.filter (·.info.candidate = c) = [nodeOf c r.confidence r.explanation] := by
    intro c hc
    refine hn.rated.1 (allClear_lexical ha hd) _ ?_ c hc rfl
    exact List.mem_mergeSort.mpr <| List.mem_map_of_mem hc
  refine ⟨hc, fun n hm he => ?_⟩
  have hm' := (apply_perm ..).mem_iff.mp <| List.mem_map_of_mem (f := (·.info.candidate)) hm
  have hf := hc _ hm'
  rw [filter_apply hn.distinct hm] at hf
  have hs : n.info.explanation = (Lexical.rankOne _ n.info.candidate).explanation :=
    congrArg (·.info.explanation) <| List.singleton_injective hf
  exact explanation_ne _ _ <| hs.symm.trans he

-- Functions of one name on one line of files of one name, of which the one in the deeper directory has
-- less in common with the log.
theorem lexical_rated_same_name :
    let c : CallCandidate := ⟨⟨"/r/a/b".toList⟩, 1, "go".toList, "pay()".toList⟩
    let d : CallCandidate := ⟨⟨"/r/b".toList⟩, 1, "go".toList, "order()".toList⟩
    let request : RankRequest := ⟨"order placed".toList, none, [], [c, d]⟩
    (∀ c ∈ request.candidates, c.file.isAbsolute = true) ∧
    (request.candidates.map CallCandidate.key).Nodup ∧
    let r := Lexical.rankOne (Lexical.vocabulary request) d
    (apply request.candidates (Lexical.rank request)).filter (·.info.candidate = d) =
      [nodeOf d r.confidence r.explanation] := by
  intro c d request
  have ha : ∀ c ∈ request.candidates, c.file.isAbsolute = true := by decide
  have hd : (request.candidates.map CallCandidate.key).Nodup := by decide
  exact ⟨ha, hd, (lexical_rated request ha hd).1 d (by simp [request])⟩

section Relative

variable {root : FilePath}

-- An entry gives the line of a call site and its path inside of a directory.
structure Locates (root : FilePath) (r : RankedCall) (c : CallCandidate) : Prop where
  line  : c.line = r.line
  given : r.file.components ≠ []
  file  : c.file.components = root.components ++ r.file.components

-- Whatever stands before the call site that an entry locates, on the same line of a file whose path
-- ends with the path in the entry, has been located by an earlier entry.
def Unmistakable (root : FilePath) (candidates : List CallCandidate) (ranked : List RankedCall) :
    Prop :=
  ∀ earlier r later, ranked = earlier ++ r :: later → ∀ b c, [b, c].Sublist candidates →
    Locates root r c → b.line = c.line → r.file.components <:+ b.file.components →
    ∃ e ∈ earlier, Locates root e b

theorem names_relative (hd : (candidates.map CallCandidate.key).Nodup)
    (hn : ∀ r ∈ ranked, ∃ c ∈ candidates, Locates root r c)
    (ho : ranked.Pairwise fun r e => ∀ c ∈ candidates, Locates root r c → ¬Locates root e c) :
    Names (Locates root) candidates ranked where
  distinct := hd.of_map _
  exists_named := hn
  inPlace := by
    intro r _ c _ h
    exact ⟨h.line, FilePath.text_ne_nil h.given, .inl ⟨_, h.file.symm⟩⟩
  unique := by
    intro r _ b hb c hc h h'
    exact eq_of_key hd hb hc (h.file.trans h'.file.symm) (h.line.trans h'.line.symm)
  once := ho

-- A path inside of an absolute directory does not end with an absolute path.
theorem inPlace_iff (hr : root.isAbsolute = true) (h : Locates root r c)
    (hb : root.components <+: b.file.components) :
    InPlace r b ↔ b.line = c.line ∧ r.file.components <:+ b.file.components := by
  have ht : r.file.text ≠ [] := FilePath.text_ne_nil h.given
  refine ⟨fun hp => ⟨hp.line.trans h.line.symm, hp.file.resolve_right ?_⟩,
    fun ⟨hl, hf⟩ => ⟨hl.trans h.line, ht, .inl hf⟩⟩
  intro hf
  obtain ⟨l, hl⟩ := FilePath.components_absolute hr
  have hm : .root ∈ r.file.components :=
    hf.mem <| hb.mem <| by simp [hl]
  refine c.file.root_notMem_tail ?_
  rw [h.file, hl]
  exact List.mem_append_right _ hm

theorem allClear_relative (hr : root.isAbsolute = true)
    (hu : ∀ c ∈ candidates, root.components <+: c.file.components) :
    AllClear (Locates root) candidates [] ranked ↔ Unmistakable root candidates ranked := by
  have hp {b c : CallCandidate} {r : RankedCall} (hs : [b, c].Sublist candidates)
      (hl : Locates root r c) := inPlace_iff hr hl <| hu b <| hs.mem (by simp)
  constructor
  case mp  =>
    intro h earlier r later he b c hs hl hb hf
    exact h earlier r later he b c hs hl <| (hp hs hl).mpr ⟨hb, hf⟩
  case mpr =>
    intro h earlier r later he b c hs hl hb
    have ⟨hb, hf⟩ := (hp hs hl).mp hb
    exact h earlier r later he b c hs hl hb hf

end Relative

-- Entries with lines and relative paths, each about one call site of its own. Each of these call sites
-- gets what its entry says, unless another one before it can be taken for it when the turn of the
-- entry comes; then what an entry says is said about a call site that it does not locate.
theorem relative_rated {root : FilePath} (hr : root.isAbsolute = true)
    (hu : ∀ c ∈ candidates, root.components <+: c.file.components)
    (hd : (candidates.map CallCandidate.key).Nodup)
    (hn : ∀ r ∈ ranked, ∃ c ∈ candidates, Locates root r c)
    (ho : ranked.Pairwise fun r e => ∀ c ∈ candidates, Locates root r c → ¬Locates root e c) :
    (Unmistakable root candidates ranked →
      ∀ r ∈ ranked, ∀ c ∈ candidates, Locates root r c →
        (apply candidates ranked).filter (·.info.candidate = c) =
          [nodeOf c r.confidence r.explanation]) ∧
    (¬Unmistakable root candidates ranked →
      ∃ r ∈ ranked, ∃ b ∈ candidates, ¬Locates root r b ∧
        (apply candidates ranked).filter (·.info.candidate = b) =
          [nodeOf b r.confidence r.explanation]) := by
  rw [← allClear_relative hr hu]
  exact (names_relative hd hn ho).rated

-- Of two files of one name the one in the deeper directory comes first, among the call sites and in
-- the reply.
theorem relative_rated_in_turn :
    let root : FilePath := ⟨"/r".toList⟩
    let c : CallCandidate := ⟨⟨"/r/a/b".toList⟩, 1, [], []⟩
    let d : CallCandidate := ⟨⟨"/r/b".toList⟩, 1, [], []⟩
    let r : RankedCall := ⟨⟨"a/b".toList⟩, 1, [], .half, "first".toList⟩
    let e : RankedCall := ⟨⟨"b".toList⟩, 1, [], .one, "second".toList⟩
    root.isAbsolute = true ∧
    (∀ x ∈ [c, d], root.components <+: x.file.components) ∧
    ([c, d].map CallCandidate.key).Nodup ∧
    (∀ x ∈ [r, e], ∃ y ∈ [c, d], Locates root x y) ∧
    [r, e].Pairwise (fun x y => ∀ z ∈ [c, d], Locates root x z → ¬Locates root y z) ∧
    Unmistakable root [c, d] [r, e] ∧
    (apply [c, d] [r, e]).filter (·.info.candidate = d) = [nodeOf d .one "second".toList] := by
  intro root c d r e
  have hrc : Locates root r c := ⟨rfl, by decide, by decide⟩
  have hed : Locates root e d := ⟨rfl, by decide, by decide⟩
  have hrd : ¬Locates root r d := fun h => absurd h.file (by decide)
  have hec : ¬Locates root e c := fun h => absurd h.file (by decide)
  have hr : root.isAbsolute = true := by decide
  have hu : ∀ x ∈ [c, d], root.components <+: x.file.components := by decide
  have hd : ([c, d].map CallCandidate.key).Nodup := by decide
  have hn : ∀ x ∈ [r, e], ∃ y ∈ [c, d], Locates root x y := by simp [hrc, hed]
  have ho : [r, e].Pairwise fun x y => ∀ z ∈ [c, d], Locates root x z → ¬Locates root y z := by
    simp [hec, hrd]
  have hm : Unmistakable root [c, d] [r, e] := by
    intro earlier x later hx b y hs hl _ _
    have hs := hs.eq_of_length rfl
    simp only [List.cons.injEq, and_true] at hs
    obtain ⟨rfl, rfl⟩ := hs
    cases earlier
    case nil  =>
      cases hx
      exact absurd hl hrd
    case cons =>
      obtain ⟨rfl, _⟩ := List.cons.inj hx
      exact ⟨r, List.mem_cons_self .., hrc⟩
  have ⟨rated, _⟩ := relative_rated hr hu hd hn ho
  exact ⟨hr, hu, hd, hn, ho, hm, rated hm e (by simp) d (by simp) hed⟩

-- The call site comes after one on the same line of a file of the same name in a deeper directory,
-- which gets what is said about it.
theorem relative_rated_mistaken :
    let root : FilePath := ⟨"/r".toList⟩
    let c : CallCandidate := ⟨⟨"/r/a/b".toList⟩, 1, [], []⟩
    let d : CallCandidate := ⟨⟨"/r/b".toList⟩, 1, [], []⟩
    let r : RankedCall := ⟨⟨"b".toList⟩, 1, [], .one, "why".toList⟩
    root.isAbsolute = true ∧
    (∀ x ∈ [c, d], root.components <+: x.file.components) ∧
    ([c, d].map CallCandidate.key).Nodup ∧
    Locates root r d ∧
    ¬Locates root r c ∧
    (apply [c, d] [r]).map (·.info) = [infoOf c .one "why".toList, infoOf d .zero notRanked] ∧
    nodeOf d r.confidence r.explanation ∉ apply [c, d] [r] := by
  intro root c d r
  have hc : InPlace r c := agreesInPlace_iff.mp <| by decide
  have ha : Assigns [r] [c, d] [⟨r, c⟩] [d] :=
    .claimed (show Claims r ([] ++ c :: [d]) _ from .place nofun hc) .done
  have hi : (apply [c, d] [r]).map (·.info) =
      [infoOf c .one "why".toList, infoOf d .zero notRanked] := by
    rw [apply_eq ha, List.mergeSort_singleton]
    rfl
  refine ⟨by decide, by decide, by decide, ⟨rfl, by decide, by decide⟩,
    fun h => absurd h.file (by decide), hi, fun h => ?_⟩
  have := List.mem_map_of_mem (f := (·.info)) h
  rw [hi] at this
  exact absurd this (by decide)

end Ranking

end LogOrigin
