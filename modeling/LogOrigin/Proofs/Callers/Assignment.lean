import LogOrigin.Proofs.Callers.Sites
import Mathlib.Data.List.Basic

-- Which call site each entry of a ranking is about. The entries claim call sites one after the other,
-- first by their place and then by their name; a call site that has been claimed is out of the way of
-- all later entries.

namespace LogOrigin

namespace Ranking

variable {r : RankedCall} {b c : CallCandidate} {ranked : List RankedCall}
variable {l l' rest rest' : List CallCandidate} {x y : Option (CallCandidate × List CallCandidate)}

-- An entry gives the line of a call site and a path that may mean its file: the components of one
-- of the two paths end with those of the other one.
structure InPlace (r : RankedCall) (c : CallCandidate) : Prop where
  line  : c.line = r.line
  given : r.file.text ≠ []
  file  : r.file.components <:+ c.file.components ∨ c.file.components <:+ r.file.components

structure InName (r : RankedCall) (c : CallCandidate) : Prop where
  given    : r.function ≠ []
  function : c.function = r.function

-- What an entry claims of the call sites that are left, with the others: the first one in its place,
-- else the first one with its name, else nothing.
inductive Claims (r : RankedCall) :
    List CallCandidate → Option (CallCandidate × List CallCandidate) → Prop where
  | place {c : CallCandidate} {before after : List CallCandidate} :
    (∀ b ∈ before, ¬InPlace r b) →
    InPlace r c →
    Claims r (before ++ c :: after) (some (c, before ++ after))
  | name {c : CallCandidate} {before after : List CallCandidate} :
    (∀ b ∈ before ++ c :: after, ¬InPlace r b) →
    (∀ b ∈ before, ¬InName r b) →
    InName r c →
    Claims r (before ++ c :: after) (some (c, before ++ after))
  | nothing {l : List CallCandidate} :
    (∀ b ∈ l, ¬InPlace r b) →
    (∀ b ∈ l, ¬InName r b) →
    Claims r l none

-- An entry of a ranking and the call site that it has claimed.
structure Claim where
  entry     : RankedCall
  candidate : CallCandidate

-- The claims of the entries of a ranking in their order, and the call sites that are left in the end.
inductive Assigns :
    List RankedCall → List CallCandidate → List Claim → List CallCandidate → Prop where
  | done {l : List CallCandidate} :
    Assigns [] l [] l
  | claimed {r : RankedCall} {c : CallCandidate} {ranked : List RankedCall}
    {l l' rest : List CallCandidate} {claims : List Claim} :
    Claims r l (some (c, l')) →
    Assigns ranked l' claims rest →
    Assigns (r :: ranked) l (⟨r, c⟩ :: claims) rest
  | passed {r : RankedCall} {ranked : List RankedCall} {l rest : List CallCandidate}
    {claims : List Claim} :
    Claims r l none →
    Assigns ranked l claims rest →
    Assigns (r :: ranked) l claims rest

-- The call site with what the entry says about it.
def Claim.info (x : Claim) : CallerInfo :=
  infoOf x.candidate x.entry.confidence x.entry.explanation

def Claim.precedes (x y : Claim) : Bool :=
  y.entry.confidence.totalKey ≤ x.entry.confidence.totalKey

-- The same claims by falling confidence, those of one confidence in the order of their entries.
structure ByConfidence (claims order : List Claim) : Prop where
  falling : order.Pairwise fun x y => y.entry.confidence.totalKey ≤ x.entry.confidence.totalKey
  stable  : ∀ confidence, order.filter (·.entry.confidence = confidence) =
    claims.filter (·.entry.confidence = confidence)

theorem sameFile_iff {p q : FilePath} :
    sameFile p q = true ↔ q.components <:+ p.components ∨ p.components <:+ q.components := by
  have ends (p q : FilePath) : p.endsWith q = true ↔ q.components <:+ p.components := by
    rw [FilePath.endsWith, beq_iff_eq, ← List.reverse_prefix, List.prefix_iff_eq_take,
      List.length_reverse]
  have same : p.same q = true → q.components <:+ p.components := by
    intro h
    have h : p.components = q.components := beq_iff_eq.mp h
    exact h ▸ List.suffix_rfl
  simp only [sameFile, Bool.or_eq_true, ends]
  exact ⟨Or.imp_left (Or.elim · same id), Or.imp_left .inr⟩

theorem agreesInPlace_iff : agreesInPlace r c = true ↔ InPlace r c := by
  simp only [agreesInPlace, Bool.and_eq_true, beq_iff_eq, Bool.not_eq_true',
    List.isEmpty_eq_false_iff, sameFile_iff]
  exact ⟨fun ⟨⟨line, given⟩, file⟩ => ⟨line, given, file⟩,
    fun ⟨line, given, file⟩ => ⟨⟨line, given⟩, file⟩⟩

theorem agreesInName_iff : agreesInName r c = true ↔ InName r c := by
  simp only [agreesInName, Bool.and_eq_true, beq_iff_eq, Bool.not_eq_true',
    List.isEmpty_eq_false_iff]
  exact ⟨fun ⟨given, function⟩ => ⟨given, function⟩, fun ⟨given, function⟩ => ⟨given, function⟩⟩

section Extraction

variable {α : Type} {p : α → Bool} {P : α → Prop} {a : α} {l before after : List α}

theorem extract?_eq_none (hp : ∀ b, p b = true ↔ P b) :
    extract? p l = none ↔ ∀ b ∈ l, ¬P b := by
  induction l
  case nil         => simp [extract?]
  case cons b l hi =>
    unfold extract?
    split
    case isTrue h  => simp [(hp b).mp h]
    case isFalse h => simp [hi, mt (hp b).mpr h]

theorem extract?_append (hp : ∀ b, p b = true ↔ P b) (hb : ∀ b ∈ before, ¬P b) (ha : P a) :
    extract? p (before ++ a :: after) = some (a, before ++ after) := by
  induction before
  case nil              => simp [extract?, (hp a).mpr ha]
  case cons b before hi =>
    have hb := List.forall_mem_cons.mp hb
    simp [extract?, mt (hp b).mp hb.1, hi hb.2]

theorem exists_of_extract? {x : α × List α} (hp : ∀ b, p b = true ↔ P b)
    (h : extract? p l = some x) :
    ∃ before a after, l = before ++ a :: after ∧ x = (a, before ++ after) ∧
      (∀ b ∈ before, ¬P b) ∧ P a := by
  induction l generalizing x
  case nil         => cases h
  case cons b l hi =>
    unfold extract? at h
    split at h
    case isTrue hb  =>
      cases h
      exact ⟨[], b, l, rfl, rfl, by simp, (hp b).mp hb⟩
    case isFalse hb =>
      obtain ⟨_, hx, rfl⟩ := Option.map_eq_some_iff.mp h
      obtain ⟨before, a, after, rfl, rfl, hn, ha⟩ := hi hx
      exact ⟨b :: before, a, after, rfl, rfl,
        List.forall_mem_cons.mpr ⟨mt (hp b).mpr hb, hn⟩, ha⟩

end Extraction

theorem claim?_eq (h : Claims r l x) : claim? r l = x := by
  unfold claim?
  cases h
  case place hb hc    => rw [extract?_append (fun _ => agreesInPlace_iff) hb hc, Option.some_or]
  case name hp hb hc  =>
    rw [(extract?_eq_none fun _ => agreesInPlace_iff).mpr hp, Option.none_or,
      extract?_append (fun _ => agreesInName_iff) hb hc]
  case nothing hp hn  =>
    rw [(extract?_eq_none fun _ => agreesInPlace_iff).mpr hp, Option.none_or,
      (extract?_eq_none fun _ => agreesInName_iff).mpr hn]

theorem claims_claim? (r : RankedCall) (l : List CallCandidate) : Claims r l (claim? r l) := by
  unfold claim?
  cases hp : extract? (agreesInPlace r) l
  case some =>
    obtain ⟨_, _, _, rfl, rfl, hb, hc⟩ := exists_of_extract? (fun _ => agreesInPlace_iff) hp
    exact .place hb hc
  case none =>
    have hp := (extract?_eq_none fun _ => agreesInPlace_iff).mp hp
    cases hn : extract? (agreesInName r) l
    case some =>
      obtain ⟨_, _, _, rfl, rfl, hb, hc⟩ := exists_of_extract? (fun _ => agreesInName_iff) hn
      exact .name hp hb hc
    case none => exact .nothing hp <| (extract?_eq_none fun _ => agreesInName_iff).mp hn

theorem Claims.unique (h : Claims r l x) (h' : Claims r l y) : x = y :=
  claim?_eq h ▸ claim?_eq h'

namespace Assigns

variable {claims claims' : List Claim}

theorem assign_eq (h : Assigns ranked l claims rest) :
    assign ranked l = (claims.map Claim.info, rest) := by
  induction h
  case done               => rfl
  case claimed hc _ hi    => rw [assign, claim?_eq hc]; simp [hi, Claim.info]
  case passed hc _ hi     => rw [assign, claim?_eq hc]; exact hi

-- There is one way to assign the entries of a ranking.
theorem unique (h : Assigns ranked l claims rest) (h' : Assigns ranked l claims' rest') :
    claims = claims' ∧ rest = rest' := by
  induction h generalizing claims'
  case done =>
    cases h'
    exact ⟨rfl, rfl⟩
  case claimed hc _ hi =>
    cases h'
    case claimed hc' h' =>
      cases hc.unique hc'
      exact (hi h').imp_left <| congrArg _
    case passed hc' _   => cases hc.unique hc'
  case passed hc _ hi =>
    cases h'
    case claimed hc' _  => cases hc.unique hc'
    case passed hc' h'  => exact hi h'

end Assigns

theorem exists_assigns (ranked : List RankedCall) (l : List CallCandidate) :
    ∃ claims rest, Assigns ranked l claims rest := by
  induction ranked generalizing l
  case nil            => exact ⟨[], l, .done⟩
  case cons r rank hi =>
    have hc := claims_claim? r l
    cases hx : claim? r l
    case none   =>
      have ⟨claims, rest, ha⟩ := hi l
      exact ⟨claims, rest, .passed (hx ▸ hc) ha⟩
    case some x =>
      have ⟨claims, rest, ha⟩ := hi x.2
      exact ⟨_, rest, .claimed (hx ▸ hc) ha⟩

-- A stable sort leaves elements that it takes for equal in their order.
theorem filter_mergeSort {α : Type} {le : α → α → Bool} {p : α → Bool} {l : List α}
    (trans : ∀ a b c, le a b = true → le b c = true → le a c = true)
    (total : ∀ a b, (le a b || le b a) = true)
    (h : ∀ a b, p a = true → p b = true → le a b = true) :
    (l.mergeSort le).filter p = l.filter p := by
  have hs : (l.filter p).Pairwise fun a b => le a b = true := by
    refine List.pairwise_of_forall_mem_list fun a ha b hb => ?_
    exact h a b (List.mem_filter.mp ha).2 (List.mem_filter.mp hb).2
  have hf := (List.sublist_mergeSort trans total hs List.filter_sublist).filter p
  rw [List.filter_filter] at hf
  simp only [Bool.and_self] at hf
  exact hf.eq_of_length ((List.mergeSort_perm l le).filter p).length_eq.symm |>.symm

theorem byConfidence_mergeSort (claims : List Claim) :
    ByConfidence claims (claims.mergeSort Claim.precedes) := by
  have trans (x y z : Claim) : x.precedes y = true → y.precedes z = true → x.precedes z = true := by
    simp only [Claim.precedes, decide_eq_true_eq]
    omega
  have total (x y : Claim) : (x.precedes y || y.precedes x) = true := by
    simp only [Claim.precedes, Bool.or_eq_true, decide_eq_true_eq]
    omega
  constructor
  case falling =>
    exact (List.pairwise_mergeSort trans total claims).imp of_decide_eq_true
  case stable  =>
    intro confidence
    refine filter_mergeSort trans total fun x y hx hy => ?_
    simp only [decide_eq_true_eq] at hx hy
    simp [Claim.precedes, hx, hy]

theorem apply_eq {claims : List Claim} (h : Assigns ranked l claims rest) :
    apply l ranked = (claims.mergeSort Claim.precedes).map (.ofInfo ·.info) ++
      rest.map (nodeOf · .zero notRanked) := by
  have hs : (claims.map Claim.info).mergeSort
      (fun a b => b.confidence.totalKey ≤ a.confidence.totalKey) =
        (claims.mergeSort Claim.precedes).map Claim.info :=
    (List.map_mergeSort (f := Claim.info) fun _ _ _ _ => rfl).symm
  simp only [apply, h.assign_eq, hs, List.map_map]
  rfl

-- However a ranking is written, each call site is there once and stays what it is. The entries claim
-- call sites one after the other, in the only way there is. What has been claimed comes first, rated
-- as in its entry and by falling confidence; then comes what is left, in its order and not ranked.
theorem apply_assigns (candidates : List CallCandidate) (ranked : List RankedCall) :
    ((apply candidates ranked).map (·.info.candidate)).Perm candidates ∧
    ∃ claims rest order, Assigns ranked candidates claims rest ∧
      (∀ claims' rest', Assigns ranked candidates claims' rest' →
        claims' = claims ∧ rest' = rest) ∧
      ByConfidence claims order ∧
      apply candidates ranked =
        order.map (fun x => .ofInfo {
          file        := x.candidate.file
          line        := x.candidate.line
          snippet     := x.candidate.snippet
          function    := x.candidate.function
          confidence  := x.entry.confidence
          explanation := x.entry.explanation }) ++
        rest.map fun c => .ofInfo {
          file        := c.file
          line        := c.line
          snippet     := c.snippet
          function    := c.function
          confidence  := .zero
          explanation := "not ranked by oracle".toList } := by
  have ⟨claims, rest, ha⟩ := exists_assigns ranked candidates
  refine ⟨apply_perm candidates ranked, claims, rest, claims.mergeSort Claim.precedes, ha, ?_,
    byConfidence_mergeSort claims, apply_eq ha⟩
  exact fun _ _ ha' => ha'.unique ha

end Ranking

end LogOrigin
