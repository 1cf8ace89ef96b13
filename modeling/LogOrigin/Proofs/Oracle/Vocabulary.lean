import LogOrigin.Oracle.Lexical
import LogOrigin.Proofs.Lists
import LogOrigin.Proofs.Text.Trim

-- The lexical ranking of call sites. Of what a request says about the log only the terms count, and
-- the rating of a call site and its place beside another one do not depend on the rest of them.

namespace LogOrigin

open Text

namespace Lexical

variable {r r' : RankRequest} {t u w : Text} {c : Char} {acc : Text} {l l' : List Text}

-- A piece of a text between two characters that are in no identifier, or the ends of the text.
def IsPiece (t w : Text) : Prop :=
  ∃ a b, t = a ++ (w ++ b) ∧ (∀ c ∈ w, isIdent c = true) ∧ (∀ c ∈ a.getLast?, isIdent c = false) ∧
    ∀ c ∈ b.head?, isIdent c = false

-- The pieces of at least three bytes, in small letters.
def IsTerm (t w : Text) : Prop :=
  ∃ u, IsPiece t u ∧ 3 ≤ byteSize u ∧ w = lowercase u

-- A term that a request has, wherever it stands.
inductive Mentions (r : RankRequest) (w : Text) : Prop where
  | current : IsTerm r.currentLine w → Mentions r w
  | literal {t : Text} : r.staticText = some t → IsTerm t w → Mentions r w
  | context {t : Text} : t ∈ r.contextLines → IsTerm t w → Mentions r w

-- Call sites by falling confidence, those of one confidence in their order.
def Ranks (rate : CallCandidate → RankedCall) (candidates : List CallCandidate)
    (ranked : List RankedCall) : Prop :=
  ∃ order : List (CallCandidate × Nat), order.Perm candidates.zipIdx ∧
    ranked = order.map (fun x => rate x.1) ∧
    order.Pairwise fun x y =>
      (rate y.1).confidence.valueKey < (rate x.1).confidence.valueKey ∨
        (rate y.1).confidence.valueKey = (rate x.1).confidence.valueKey ∧ x.2 < y.2

theorem isPiece_of_run (hu : ∀ c ∈ u, isIdent c = true) : IsPiece u w ↔ w = u := by
  constructor
  case mp  =>
    rintro ⟨a, b, rfl, _, ha, hb⟩
    have ha : a = [] := List.getLast?_eq_none_iff.mp <| Option.eq_none_iff_forall_not_mem.mpr
      fun c hc => by simpa [ha c hc] using hu c (by simp [List.mem_of_getLast? hc])
    have hb : b = [] := List.head?_eq_none_iff.mp <| Option.eq_none_iff_forall_not_mem.mpr
      fun c hc => by simpa [hb c hc] using hu c (by simp [List.mem_of_head? hc])
    rw [ha, hb, List.nil_append, List.append_nil]
  case mpr =>
    rintro rfl
    exact ⟨[], [], by simp, hu, by simp, by simp⟩

theorem IsPiece.behind (hc : isIdent c = false) (u : Text) (h : IsPiece t w) :
    IsPiece (u ++ c :: t) w := by
  obtain ⟨a, b, rfl, hw, ha, hb⟩ := h
  refine ⟨u ++ c :: a, b, by simp, hw, fun d hd => ?_, hb⟩
  rw [List.getLast?_append, List.getLast?_cons] at hd
  cases hl : a.getLast?
  case none   => simp_all
  case some e => simp_all

-- The pieces of a text whose first one is known.
theorem isPiece_append (hu : ∀ c ∈ u, isIdent c = true) (hc : isIdent c = false) :
    IsPiece (u ++ c :: t) w ↔ w = u ∨ IsPiece t w := by
  constructor
  case mp  =>
    rintro ⟨a, b, h, hw, ha, hb⟩
    rcases List.eq_nil_or_concat a with rfl | ⟨a, d, rfl⟩
    case inl =>
      cases b
      case nil      =>
        rw [List.nil_append, List.append_nil] at h
        simp [hw c (h ▸ by simp)] at hc
      case cons d b => exact .inl (run_inj hu hw hc (hb d rfl) h).1.symm
    case inr =>
      have hd : isIdent d = false := ha d (by simp)
      rw [List.concat_eq_append, List.append_assoc, List.singleton_append] at h
      rcases List.append_eq_append_iff.mp h with ⟨x, rfl, hx⟩ | ⟨x, rfl, hx⟩
      case inl =>
        cases x
        case nil      => exact .inr ⟨[], b, (List.cons.inj hx).2, hw, by simp, hb⟩
        case cons e x =>
          refine .inr ⟨x ++ [d], b, ?_, hw, by simpa using hd, hb⟩
          rw [List.append_assoc, List.singleton_append]
          exact (List.cons.inj hx).2
      case inr =>
        cases x
        case nil      => exact .inr ⟨[], b, (List.cons.inj hx).2.symm, hw, by simp, hb⟩
        case cons e x =>
          obtain rfl : d = e := (List.cons.inj hx).1
          simp [hu d (by simp)] at hd
  case mpr =>
    rintro (rfl | h)
    case inl => exact ⟨[], c :: t, rfl, hu, by simp, by simpa using hc⟩
    case inr => exact h.behind hc u

theorem mem_identifiers_go (h : ∀ c ∈ acc, isIdent c = true) :
    w ∈ identifiers.go acc t ↔ IsPiece (acc.reverse ++ t) w := by
  induction t generalizing acc
  case nil         => simp [identifiers.go, isPiece_of_run (u := acc.reverse) (by simpa using h)]
  case cons c t hi =>
    unfold identifiers.go
    split
    case isTrue hc  => simpa using hi (List.forall_mem_cons.mpr ⟨hc, h⟩)
    case isFalse hc =>
      rw [List.mem_cons, isPiece_append (by simpa using h) (Bool.eq_false_iff.mpr hc),
        hi (by simp), List.reverse_nil, List.nil_append]

theorem mem_identifiers_iff : w ∈ identifiers t ↔ IsPiece t w :=
  mem_identifiers_go (by simp)

theorem mem_terms_iff : w ∈ terms t ↔ IsTerm t w := by
  simp only [terms, List.mem_eraseDups, List.mem_map, List.mem_filter, mem_identifiers_iff, IsTerm,
    and_assoc, @eq_comm _ w]
  exact exists_congr fun u => and_congr_right' <| and_congr_left' decide_eq_true_iff

theorem mem_vocabulary_iff : w ∈ vocabulary r ↔ Mentions r w := by
  rw [vocabulary, List.mem_append, List.mem_append, List.mem_flatMap, mem_terms_iff]
  constructor
  case mp  =>
    rintro ((h | h) | ⟨t, ht, h⟩)
    case inl.inl => exact .current h
    case inl.inr =>
      cases hs : r.staticText
      case none   => simp [hs] at h
      case some t => exact .literal hs <| mem_terms_iff.mp <| by simpa [hs] using h
    case inr     => exact .context ht <| mem_terms_iff.mp h
  case mpr =>
    rintro (h | ⟨hs, h⟩ | ⟨ht, h⟩)
    case current => exact .inl (.inl h)
    case literal => exact .inl (.inr <| by simpa [hs] using mem_terms_iff.mpr h)
    case context => exact .inr ⟨_, ht, mem_terms_iff.mpr h⟩

-- A call site is rated by which of its terms are in a vocabulary.
theorem rankOne_congr (h : ∀ w, w ∈ l ↔ w ∈ l') : rankOne l = rankOne l' := by
  have hc : l.contains = l'.contains := by
    funext w
    simp [h]
  funext c
  simp only [rankOne, hc]

def precedes (x y : RankedCall) : Bool :=
  y.confidence.valueKey ≤ x.confidence.valueKey

theorem precedes_trans (x y z : RankedCall) (h : precedes x y = true) (h' : precedes y z = true) :
    precedes x z = true := by
  simp only [precedes, decide_eq_true_eq] at *
  omega

theorem precedes_total (x y : RankedCall) : (precedes x y || precedes y x) = true := by
  simp only [precedes, Bool.or_eq_true, decide_eq_true_eq]
  omega

theorem rank_eq (r : RankRequest) :
    rank r = (r.candidates.map (rankOne (vocabulary r))).mergeSort precedes :=
  rfl

theorem ranks_mergeSort (rate : CallCandidate → RankedCall) (candidates : List CallCandidate) :
    Ranks rate candidates ((candidates.map rate).mergeSort precedes) := by
  let le := fun x y : CallCandidate × Nat => precedes (rate x.1) (rate y.1)
  refine ⟨candidates.zipIdx.mergeSort le, List.mergeSort_perm .., ?_, ?_⟩
  · have hm := List.map_mergeSort (f := fun x => rate x.1) (r := le) (s := precedes)
      (l := candidates.zipIdx) fun _ _ _ _ => rfl
    have hc : candidates.zipIdx.map (fun x => rate x.1) = candidates.map rate := by
      rw [← Function.comp_def rate Prod.fst, ← List.map_map, List.zipIdx_map_fst]
    rw [hm, hc]
  · refine (Lists.pairwise_mergeSort le (fun _ _ _ => precedes_trans _ _ _)
      (fun _ _ => precedes_total _ _) (Lists.zipIdx_increasing candidates)).imp ?_
    rintro x y ⟨hle, hlt⟩
    simp only [le, precedes, decide_eq_true_eq] at hle hlt
    exact (Int.lt_or_eq_of_le hle).imp_right fun he => ⟨he, hlt he.ge⟩

-- The ranking of a request is determined by its terms and its call sites. Each call site is there
-- once and as it is, and is rated by itself: with fewer or more of the others its rating is the same
-- and so is its place beside those that stay.
theorem rank_by_terms (h : ∀ w, Mentions r w ↔ Mentions r' w) :
    (r.candidates = r'.candidates → rank r = rank r') ∧
    (r.candidates.Sublist r'.candidates → (rank r).Sublist (rank r')) ∧
    ∃ rate : CallCandidate → RankedCall,
      (∀ c, (rate c).file = c.file ∧ (rate c).line = c.line ∧ (rate c).function = c.function ∧
        Confidence.InUnit (rate c).confidence) ∧
      Ranks rate r.candidates (rank r) ∧ Ranks rate r'.candidates (rank r') := by
  have hv : rankOne (vocabulary r) = rankOne (vocabulary r') :=
    rankOne_congr fun w => by rw [mem_vocabulary_iff, mem_vocabulary_iff, h]
  refine ⟨fun hc => ?_, fun hc => ?_, rankOne (vocabulary r), fun c => ?_,
    ranks_mergeSort .., ?_⟩
  · rw [rank_eq, rank_eq, hv, hc]
  · rw [rank_eq, rank_eq, hv]
    exact Lists.mergeSort_sublist precedes precedes_trans precedes_total (hc.map _)
  · exact ⟨rfl, rfl, rfl, Confidence.clamp_inUnit _⟩
  · rw [hv]
    exact ranks_mergeSort ..

-- The words of a line, and the same words in capitals, apart and again in the lines around it. Of
-- three call sites the one that has none of them is left out.
theorem rank_by_terms_apart :
    let site : String → CallCandidate := fun s => ⟨⟨"a.rs".toList⟩, 1, [], s.toList⟩
    let together : RankRequest :=
      ⟨"order placed for ann".toList, none, [], ["emit(order)", "ann"].map site⟩
    let around : RankRequest :=
      ⟨"ANN:".toList, some "for".toList, ["an order".toList, "Placed, for Ann".toList],
        ["emit(order)", "send(mail)", "ann"].map site⟩
    (∀ w, Mentions together w ↔ Mentions around w) ∧ (rank together).Sublist (rank around) := by
  intro site together around
  have h : ∀ w, Mentions together w ↔ Mentions around w := fun w => by
    have hv : vocabulary together =
        ["order".toList, "placed".toList, "for".toList, "ann".toList] := by
      decide +kernel
    have hv' : vocabulary around =
        ["ann".toList, "for".toList, "order".toList, "placed".toList, "for".toList,
          "ann".toList] := by
      decide +kernel
    rw [← mem_vocabulary_iff, ← mem_vocabulary_iff, hv, hv']
    grind
  exact ⟨h, (rank_by_terms h).2.1 (by decide)⟩

end Lexical

end LogOrigin
