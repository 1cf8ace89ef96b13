import LogOrigin.Proofs.Search.Scan

-- A resolution as trials that are made one after the other: the first one that finds an origin or
-- fails decides, and nothing is scanned after it.

namespace LogOrigin

open Text

namespace Resolver

variable {r r' : Resolver} {fs : Files} {record : Record} {cancelled : Bool} {text : Text}

-- A text that is long enough is scanned for if the files are known.
def scansFor (r : Resolver) (fs : Files) (text : Text) : Bool :=
  r.settings.minSearchLen ≤ (trim text).length && (r.sources fs).1.isOk

theorem search_fst (r : Resolver) (fs : Files) (text : Text) (cancelled : Bool) :
    (r.search fs text cancelled).1 =
      if (trim text).length < r.settings.minSearchLen then .ok []
      else (r.sources fs).1.bind fun files =>
        if cancelled then .error .cancelled else .ok (scan fs r.settings (trim text) files) := by
  have hs := (r.same_sources fs).settings
  unfold search
  generalize r.sources fs = p at hs ⊢
  obtain ⟨_ | files, r'⟩ := p
  case error => dsimp only; split <;> rfl
  case ok    =>
    cases cancelled
    case true  => dsimp only; split <;> rfl
    case false =>
      dsimp only at hs ⊢
      rw [hs]
      split <;> rfl

theorem scans_search (r : Resolver) (fs : Files) (text : Text) (cancelled : Bool) :
    (r.search fs text cancelled).2.scans = r.scans + (r.scansFor fs text).toNat := by
  have hs := r.scans_sources fs
  unfold search scansFor
  generalize r.sources fs = p at hs ⊢
  obtain ⟨found, r'⟩ := p
  dsimp only at hs ⊢
  split
  case isTrue h  => simp [Nat.not_le.mpr h]
  case isFalse h =>
    cases found
    case error => simp [hs, Except.isOk, Except.toBool]
    case ok    => cases cancelled <;> simp [hs, Nat.not_lt.mp h, Except.isOk, Except.toBool]

theorem ofFileName_fst (r : Resolver) (fs : Files) (record : Record) :
    (r.ofFileName fs record).1 =
      if FileName.stems r.settings.minSearchLen record = [] then .ok none
      else (r.sources fs).1.map fun files =>
        (FileName.best? r.root (FileName.stems r.settings.minSearchLen record) files).map
          fun file => .ofLocation .filename ⟨file, 0⟩ := by
  unfold ofFileName
  generalize r.sources fs = p
  obtain ⟨_ | files, r'⟩ := p
  all_goals
    split
    case h_1 hs => rw [if_pos hs]
    case h_2 hs => rw [if_neg hs]; rfl

theorem scans_ofFileName (r : Resolver) (fs : Files) (record : Record) :
    (r.ofFileName fs record).2.scans = r.scans := by
  have hs := r.scans_sources fs
  unfold ofFileName
  generalize r.sources fs = p at hs ⊢
  obtain ⟨_ | files, r'⟩ := p
  all_goals
    split
    case h_1 => rfl
    case h_2 => exact hs

-- One way to find the origin of a record.
inductive Trial where
  | cache
  | hint
  | scan (stage : Stage) (needle : Text)
  | filename
  deriving DecidableEq

namespace Trial

def stage : Trial → Stage
  | cache        => .cache
  | hint         => .hint
  | scan stage _ => stage
  | filename     => .filename

-- All trials for a record: its location, the hints in its message, the static text and the variants
-- of it, the cleaned message unless this is empty or the static text again, and the file names.
def inOrder (record : Record) : List Trial :=
  let static := (static? record).toList
  let cleaned := Cleaning.clean record.message
  [cache, hint] ++
  static.map (scan .staticString) ++
  (static.flatMap Cleaning.variants).map (scan .variant) ++
  (if cleaned = [] ∨ static = [cleaned] then [] else [scan .cleanedMessage cleaned]) ++
  [filename]

-- A trial on its own: what it finds, and the resolver after it.
def make (fs : Files) (record : Record) (cancelled : Bool) (r : Resolver) :
    Trial → Except Failure (Option Origin) × Resolver
  | cache             => (.ok (ofCache? fs r.root record), r)
  | hint              => (.ok (ofHints? fs r.root record), r)
  | scan stage needle =>
    let (found, r) := r.search fs needle cancelled
    (found.map fun l => l.head?.map (.ofCandidate stage), r)
  | filename          => if cancelled then (.error .cancelled, r) else r.ofFileName fs record

-- What a trial finds if it is the first one.
def outcome (fs : Files) (record : Record) (cancelled : Bool) (r : Resolver) (t : Trial) :
    Except Failure (Option Origin) :=
  (t.make fs record cancelled r).1

-- Whether the files are scanned for a trial.
def isScan (fs : Files) (r : Resolver) : Trial → Bool
  | scan _ needle => r.scansFor fs needle
  | _             => false

theorem outcome_of_continues (h : Continues fs r r') (t : Trial) :
    t.outcome fs record cancelled r' = t.outcome fs record cancelled r := by
  cases t
  case cache    => simp only [outcome, make, h.root]
  case hint     => simp only [outcome, make, h.root]
  case scan     => simp only [outcome, make, search_fst, h.settings, h.sources]
  case filename =>
    cases cancelled
    case true  => rfl
    case false =>
      change (r'.ofFileName fs record).1 = (r.ofFileName fs record).1
      simp only [ofFileName_fst, h.root, h.settings, h.sources]

theorem isScan_of_continues (h : Continues fs r r') (t : Trial) :
    t.isScan fs r' = t.isScan fs r := by
  cases t
  case scan => simp only [isScan, scansFor, h.settings, h.sources]
  all_goals rfl

theorem continues_make (fs : Files) (record : Record) (cancelled : Bool) (r : Resolver)
    (t : Trial) : Continues fs r (t.make fs record cancelled r).2 := by
  cases t
  case cache         => exact .refl fs r
  case hint          => exact .refl fs r
  case scan s needle => exact continues_search r fs needle cancelled
  case filename      =>
    cases cancelled
    case true  => exact .refl fs r
    case false => exact continues_ofFileName r fs record

theorem scans_make (fs : Files) (record : Record) (cancelled : Bool) (r : Resolver) (t : Trial) :
    (t.make fs record cancelled r).2.scans = r.scans + (t.isScan fs r).toNat := by
  cases t
  case cache         => rfl
  case hint          => rfl
  case scan s needle => exact scans_search r fs needle cancelled
  case filename      =>
    cases cancelled
    case true  => rfl
    case false => exact scans_ofFileName r fs record

-- The trials one after the other, until one of them decides.
def inTurn (fs : Files) (record : Record) (cancelled : Bool) :
    List Trial → Resolver → Except Failure (Option Origin) × Resolver
  | [], r     => (.ok none, r)
  | t :: l, r =>
    match t.make fs record cancelled r with
    | (.ok none, r) => inTurn fs record cancelled l r
    | decided       => decided

-- How trials end: nothing is found by any of them, or the first one that finds an origin or fails
-- decides. The number is that of the scans.
inductive Ends (fs : Files) (record : Record) (cancelled : Bool) (r : Resolver) :
    List Trial → Except Failure (Option Origin) → Nat → Prop where
  | nothing : Ends fs record cancelled r [] (.ok none) 0
  | decided {t : Trial} {l : List Trial} (ht : t.outcome fs record cancelled r ≠ .ok none) :
      Ends fs record cancelled r (t :: l) (t.outcome fs record cancelled r) (t.isScan fs r).toNat
  | next {t : Trial} {l : List Trial} {result : Except Failure (Option Origin)} {n : Nat}
      (ht : t.outcome fs record cancelled r = .ok none)
      (hl : Ends fs record cancelled r l result n) :
      Ends fs record cancelled r (t :: l) result ((t.isScan fs r).toNat + n)

variable {t : Trial} {l : List Trial} {result result' : Except Failure (Option Origin)}
variable {n n' : Nat}

theorem Ends.unique (h : Ends fs record cancelled r l result n)
    (h' : Ends fs record cancelled r l result' n') : result = result' ∧ n = n' := by
  induction h generalizing n'
  case nothing =>
    cases h'
    exact ⟨rfl, rfl⟩
  case decided ht =>
    cases h'
    case decided    => exact ⟨rfl, rfl⟩
    case next hn _  => exact absurd hn ht
  case next hn _ hi =>
    cases h'
    case decided ht   => exact absurd hn ht
    case next n'' hl' =>
      obtain ⟨rfl, rfl⟩ := hi hl'
      exact ⟨rfl, rfl⟩

theorem toNat_add_countP (t : Trial) (l : List Trial) :
    (t.isScan fs r).toNat + l.countP (isScan fs r) = (t :: l).countP (isScan fs r) := by
  rw [List.countP_cons, Nat.add_comm]
  cases t.isScan fs r <;> rfl

theorem Ends.of_decided {tried rest : List Trial}
    (hl : ∀ t ∈ tried, t.outcome fs record cancelled r = .ok none)
    (ht : t.outcome fs record cancelled r ≠ .ok none) :
    Ends fs record cancelled r (tried ++ t :: rest) (t.outcome fs record cancelled r)
      ((tried ++ [t]).countP (isScan fs r)) := by
  induction tried
  case nil             =>
    rw [List.nil_append, List.nil_append, ← toNat_add_countP]
    exact .decided ht
  case cons u tried hi =>
    have ⟨hu, hl⟩ := List.forall_mem_cons.mp hl
    rw [List.cons_append, List.cons_append, ← toNat_add_countP]
    exact .next hu (hi hl)

theorem Ends.cases_split (h : Ends fs record cancelled r l result n) :
    (result = .ok none ∧ ∀ t ∈ l, t.outcome fs record cancelled r = .ok none) ∨
    ∃ tried t rest, l = tried ++ t :: rest ∧
      (∀ u ∈ tried, u.outcome fs record cancelled r = .ok none) ∧
      t.outcome fs record cancelled r = result ∧ result ≠ .ok none := by
  induction h
  case nothing                => exact .inl ⟨rfl, by simp⟩
  case decided t l ht         => exact .inr ⟨[], t, l, rfl, by simp, rfl, ht⟩
  case next u l _ _ hu _ hi =>
    rcases hi with ⟨hr, hl⟩ | ⟨tried, t, rest, rfl, hl, ht, hr⟩
    case inl => exact .inl ⟨hr, List.forall_mem_cons.mpr ⟨hu, hl⟩⟩
    case inr => exact .inr ⟨u :: tried, t, rest, rfl, List.forall_mem_cons.mpr ⟨hu, hl⟩, ht, hr⟩

theorem ends_inTurn (record : Record) (cancelled : Bool) (l : List Trial)
    (h : Continues fs r r') :
    ∃ n, Ends fs record cancelled r l (inTurn fs record cancelled l r').1 n ∧
      (inTurn fs record cancelled l r').2.scans = r'.scans + n := by
  induction l generalizing r'
  case nil         => exact ⟨0, .nothing, rfl⟩
  case cons t l hi =>
    have ho : (t.make fs record cancelled r').1 = t.outcome fs record cancelled r :=
      outcome_of_continues h t
    have hc := continues_make fs record cancelled r' t
    have hs := scans_make fs record cancelled r' t
    rw [isScan_of_continues h] at hs
    unfold inTurn
    generalize t.make fs record cancelled r' = p at ho hc hs
    obtain ⟨found, r''⟩ := p
    dsimp only at ho hc hs
    have decided (hf : found ≠ .ok none) :
        ∃ n, Ends fs record cancelled r (t :: l) found n ∧ r''.scans = r'.scans + n := by
      subst ho
      exact ⟨_, .decided hf, hs⟩
    rcases found with e | _ | o
    case error   => exact decided nofun
    case ok.some => exact decided nofun
    case ok.none =>
      obtain ⟨n, hn, hl⟩ := hi (h.trans hc)
      exact ⟨_, .next ho.symm hn, hl.trans <| by rw [hs, Nat.add_assoc]⟩

theorem inOrder_eq (record : Record) : inOrder record =
    cache :: hint :: ((needles record).map fun e => scan e.1 e.2) ++ [filename] := by
  unfold inOrder needles
  cases hs : static? record
  case none   => simp [apply_ite]
  case some s => simp [apply_ite, Function.comp_def]

-- At most seven texts are looked for: a static text, five variants and the cleaned message.
theorem length_needles (record : Record) : (needles record).length ≤ 7 := by
  unfold needles
  dsimp only
  split
  case h_1 s _ =>
    have hv := Cleaning.length_variants s
    split <;> simp only [List.length_append, List.length_cons, List.length_map, List.length_nil] <;>
      omega
  case h_2     => split <;> simp

theorem inTurn_scans (l : List (Stage × Text)) (r : Resolver) :
    inTurn fs record cancelled ((l.map fun e => scan e.1 e.2) ++ [filename]) r =
      match firstMatch fs cancelled l r with
      | (.ok none, r) => filename.make fs record cancelled r
      | result        => result := by
  induction l generalizing r
  case nil         =>
    rw [List.map_nil, List.nil_append, inTurn, firstMatch]
    dsimp only
    generalize filename.make fs record cancelled r = p
    obtain ⟨_ | _ | _, r'⟩ := p <;> rfl
  case cons e l hi =>
    rw [List.map_cons, List.cons_append, inTurn, firstMatch, make]
    generalize r.search fs e.2 cancelled = p
    obtain ⟨_ | _ | _, r'⟩ := p
    case error   => rfl
    case ok.nil  => exact hi r'
    case ok.cons => rfl

theorem stages_eq (r : Resolver) (fs : Files) (record : Record) (cancelled : Bool) :
    r.stages fs record cancelled = inTurn fs record cancelled (inOrder record) r := by
  rw [inOrder_eq, stages, List.cons_append, List.cons_append, inTurn, make]
  cases ofCache? fs r.root record
  case some o => rfl
  case none   =>
    rw [Option.none_or]
    dsimp only
    rw [inTurn, make]
    cases ofHints? fs r.root record
    case some o => rfl
    case none   =>
      dsimp only
      rw [inTurn_scans, ofSources]
      rfl

theorem resolve_eq (r : Resolver) (fs : Files) (record : Record) (cancelled : Bool) :
    r.resolve fs record cancelled =
      let (result, r') := inTurn fs record cancelled (inOrder record) r
      (resolutionOf result, r') := by
  rw [resolve, stages_eq]

theorem ends_resolve (r : Resolver) (fs : Files) (record : Record) (cancelled : Bool) :
    ∃ result n, Ends fs record cancelled r (inOrder record) result n ∧
      (r.resolve fs record cancelled).1 = resolutionOf result ∧
      (r.resolve fs record cancelled).2.scans = r.scans + n := by
  have ⟨n, hn, hs⟩ := ends_inTurn record cancelled (inOrder record) (.refl fs r)
  rw [resolve_eq]
  exact ⟨_, n, hn, rfl, hs⟩

theorem countP_isScan_le (record : Record) :
    (inOrder record).countP (isScan fs r) ≤ 7 := by
  rw [inOrder_eq, List.cons_append, List.cons_append, ← toNat_add_countP, ← toNat_add_countP,
    List.countP_append]
  calc 0 + (0 + (((needles record).map fun e => scan e.1 e.2).countP (isScan fs r) + 0))
    _ = ((needles record).map fun e => scan e.1 e.2).countP (isScan fs r) := by omega
    _ ≤ ((needles record).map fun e => scan e.1 e.2).length              := List.countP_le_length
    _ = (needles record).length                                          := List.length_map ..
    _ ≤ 7                                                                := length_needles record

theorem Ends.le_countP (h : Ends fs record cancelled r l result n) :
    n ≤ l.countP (isScan fs r) := by
  induction h
  case nothing         => exact Nat.zero_le _
  case decided         =>
    rw [← toNat_add_countP]
    exact Nat.le_add_right ..
  case next _ _ _ _ hi =>
    rw [← toNat_add_countP]
    exact Nat.add_le_add_left hi _

-- The trial reports its own stage.
theorem stage_of_outcome {o : Origin} (h : t.outcome fs record cancelled r = .ok (some o)) :
    o.stage = t.stage := by
  cases t
  case cache    =>
    obtain ⟨_, _, _, _, rfl⟩ := ofCache?_found (Except.ok.inj h)
    rfl
  case hint     =>
    obtain ⟨_, _, _, _, rfl⟩ := ofHints?_found (Except.ok.inj h)
    rfl
  case filename =>
    cases cancelled
    case true  => cases h
    case false =>
      obtain ⟨_, _, _, _, rfl⟩ := ofFileName_found h
      rfl
  case scan s needle =>
    have hs {found : Except Failure (List Candidate)}
        (h : (found.map fun l => l.head?.map (.ofCandidate s)) = .ok (some o)) : o.stage = s := by
      rcases found with _ | _ | _ <;> cases h
      rfl
    exact hs h

-- Once the token is cancelled nothing is found in the source files.
theorem outcome_cancelled (hc : t ≠ cache) (hh : t ≠ hint) :
    (t.outcome fs record true r = .ok none ∧ t ≠ filename) ∨
    t.outcome fs record true r = .error .cancelled ∨
    t.outcome fs record true r = .error (.file (.missingRoot r.root)) := by
  cases t
  case cache         => exact absurd rfl hc
  case hint          => exact absurd rfl hh
  case filename      => exact .inr <| .inl rfl
  case scan s needle =>
    have he {e} (he : (r.sources fs).1 = .error e) := sources_error he
    simp only [outcome, make, search_fst]
    split
    case isTrue  => exact .inl ⟨rfl, nofun⟩
    case isFalse =>
      cases hf : (r.sources fs).1
      case error => exact .inr <| .inr <| by rw [he hf]; rfl
      case ok    => exact .inr <| .inl rfl

-- A trial decides if it finds an origin or fails, and all trials before it find nothing.
structure Decides (fs : Files) (record : Record) (cancelled : Bool) (r : Resolver)
    (tried : List Trial) (t : Trial) : Prop where
  order   : ∃ rest, inOrder record = tried ++ t :: rest
  nothing : ∀ u ∈ tried, u.outcome fs record cancelled r = .ok none
  outcome : t.outcome fs record cancelled r ≠ .ok none

theorem Decides.resolve {tried : List Trial} (h : Decides fs record cancelled r tried t) :
    (r.resolve fs record cancelled).1 = resolutionOf (t.outcome fs record cancelled r) ∧
    (r.resolve fs record cancelled).2.scans = r.scans + (tried ++ [t]).countP (isScan fs r) := by
  obtain ⟨result, n, he, hr, hs⟩ := ends_resolve r fs record cancelled
  obtain ⟨rest, ho⟩ := h.order
  rw [ho] at he
  obtain ⟨rfl, rfl⟩ := he.unique (.of_decided h.nothing h.outcome)
  exact ⟨hr, hs⟩

theorem resolutionOf_found {o : Origin} (h : resolutionOf result = .ok (.found o)) :
    result = .ok (some o) := by
  unfold resolutionOf at h
  split at h <;> cases h
  rfl

theorem resolutionOf_notFound (h : resolutionOf result = .ok .notFound) : result = .ok none := by
  unfold resolutionOf at h
  split at h <;> cases h
  rfl

theorem exists_decides (r : Resolver) (fs : Files) (record : Record) (cancelled : Bool) :
    ((r.resolve fs record cancelled).1 = .ok .notFound ∧
      ∀ t ∈ inOrder record, t.outcome fs record cancelled r = .ok none) ∨
    ∃ tried t, Decides fs record cancelled r tried t := by
  obtain ⟨result, n, he, hr, _⟩ := ends_resolve r fs record cancelled
  rcases he.cases_split with ⟨rfl, hl⟩ | ⟨tried, t, rest, ho, hl, rfl, ht⟩
  case inl => exact .inl ⟨hr, hl⟩
  case inr => exact .inr ⟨tried, t, ⟨rest, ho⟩, hl, ht⟩

end Trial

open Trial

theorem scanned_of_mem_needles {e : Stage × Text} (h : e ∈ needles record) :
    e.1 ∈ [Stage.staticString, .variant, .cleanedMessage] := by
  have hv {v : Text} {l : List Text} (h : e ∈ (Stage.staticString, v) :: l.map (.variant, ·)) :
      e.1 ∈ [Stage.staticString, .variant, .cleanedMessage] := by
    rcases List.mem_cons.mp h with rfl | h
    case inl => simp
    case inr =>
      obtain ⟨_, _, rfl⟩ := List.mem_map.mp h
      simp
  rcases List.mem_append.mp h with h | h
  case inl =>
    split at h
    case h_1 => exact hv h
    case h_2 => cases h
  case inr =>
    split at h
    case isTrue  => cases h
    case isFalse => simp [List.mem_singleton.mp h]

-- Neither the location of a record nor a hint is searched for in the source files.
theorem scans_unsearched {o : Origin} (h : (r.resolve fs record cancelled).1 = .ok (.found o))
    (ho : o.stage = .cache ∨ o.stage = .hint) :
    (r.resolve fs record cancelled).2.scans = r.scans := by
  cases hs : (ofCache? fs r.root record).or (ofHints? fs r.root record)
  case some => simp [resolve, stages, hs]
  case none =>
    obtain ⟨hc, hh⟩ := Option.or_eq_none_iff.mp hs
    rcases resolve_found h with h | h | h | ⟨_, _, _, _, rfl⟩
    case inl         => cases hc ▸ h
    case inr.inl     => cases hh ▸ h
    case inr.inr.inr => rcases ho with ho | ho <;> cases ho
    case inr.inr.inl =>
      obtain ⟨_, _, _, _, hm, _, _⟩ := firstMatch_found trim_needle h
      have hm := scanned_of_mem_needles hm
      rcases ho with ho | ho <;> simp [ho] at hm

theorem resolve_found_iff {o : Origin} : (r.resolve fs record false).1 = .ok (.found o) ↔
    ∃ tried t, Decides fs record false r tried t ∧
      t.outcome fs record false r = .ok (some o) ∧ o.stage = t.stage := by
  constructor
  case mp  =>
    intro h
    rcases exists_decides r fs record false with ⟨hn, _⟩ | ⟨tried, t, hd⟩
    case inl => cases hn.symm.trans h
    case inr =>
      have ho := resolutionOf_found (hd.resolve.1 ▸ h)
      exact ⟨tried, t, hd, ho, stage_of_outcome ho⟩
  case mpr =>
    rintro ⟨tried, t, hd, ho, _⟩
    rw [hd.resolve.1, ho]
    rfl

theorem resolve_notFound_iff : (r.resolve fs record false).1 = .ok .notFound ↔
    ∀ t ∈ inOrder record, t.outcome fs record false r = .ok none := by
  rcases exists_decides r fs record false with ⟨h, hl⟩ | ⟨tried, t, hd⟩
  case inl => exact iff_of_true h hl
  case inr =>
    refine iff_of_false (fun h => hd.outcome <| resolutionOf_notFound (hd.resolve.1 ▸ h)) ?_
    intro hl
    obtain ⟨rest, ho⟩ := hd.order
    exact hd.outcome <| hl t (by simp [ho])

theorem scans_resolve_le (r : Resolver) (fs : Files) (record : Record) (cancelled : Bool) :
    (r.resolve fs record cancelled).2.scans ≤ r.scans + 7 := by
  obtain ⟨_, n, he, _, hs⟩ := ends_resolve r fs record cancelled
  rw [hs]
  exact Nat.add_le_add_left (Nat.le_trans he.le_countP (countP_isScan_le record)) _

theorem resolve_cancelled (r : Resolver) (fs : Files) (record : Record) :
    (∃ o, (r.resolve fs record true).1 = .ok (.found o) ∧ (o.stage = .cache ∨ o.stage = .hint)) ∨
    (r.resolve fs record true).1 = .ok .cancelled ∨
    (r.resolve fs record true).1 = .error (.file (.missingRoot r.root)) := by
  rcases exists_decides r fs record true with ⟨_, hl⟩ | ⟨tried, t, hd⟩
  case inl => cases hl filename (by simp [inOrder])
  case inr =>
    rw [hd.resolve.1]
    have unsearched {found : Option Origin} (hf : t.outcome fs record true r = .ok found)
        (ht : t.stage = .cache ∨ t.stage = .hint) :
        ∃ o, resolutionOf (t.outcome fs record true r) = .ok (.found o) ∧
          (o.stage = .cache ∨ o.stage = .hint) := by
      cases found
      case none   => exact absurd hf hd.outcome
      case some o => exact ⟨o, by rw [hf]; rfl, stage_of_outcome hf ▸ ht⟩
    by_cases hc : t = cache
    case pos => exact .inl <| unsearched (by rw [hc]; rfl) (.inl <| by rw [hc]; rfl)
    case neg =>
      by_cases hh : t = hint
      case pos => exact .inl <| unsearched (by rw [hh]; rfl) (.inr <| by rw [hh]; rfl)
      case neg =>
        rcases outcome_cancelled hc hh with ⟨ht, _⟩ | ht | ht
        case inl     => exact absurd ht hd.outcome
        case inr.inl => exact .inr <| .inl <| by rw [ht]; rfl
        case inr.inr => exact .inr <| .inr <| by rw [ht]; rfl

-- The first trial that finds an origin decides, nothing is scanned after it, and only if no trial
-- finds one there is none. At most seven texts are scanned for, and none if the location of the
-- record or a hint leads to a file. Once the token is cancelled these two are all that can be found.
theorem resolve_in_order (r : Resolver) (fs : Files) (record : Record) :
    (∀ o, (r.resolve fs record false).1 = .ok (.found o) ↔
      ∃ tried t, Decides fs record false r tried t ∧
        t.outcome fs record false r = .ok (some o) ∧ o.stage = t.stage) ∧
    ((r.resolve fs record false).1 = .ok .notFound ↔
      ∀ t ∈ inOrder record, t.outcome fs record false r = .ok none) ∧
    (∀ cancelled tried t, Decides fs record cancelled r tried t →
      (r.resolve fs record cancelled).2.scans = r.scans + (tried ++ [t]).countP (isScan fs r)) ∧
    (∀ cancelled, (r.resolve fs record cancelled).2.scans ≤ r.scans + 7) ∧
    (∀ cancelled o, (r.resolve fs record cancelled).1 = .ok (.found o) →
      o.stage = .cache ∨ o.stage = .hint → (r.resolve fs record cancelled).2.scans = r.scans) ∧
    ((∃ o, (r.resolve fs record true).1 = .ok (.found o) ∧
        (o.stage = .cache ∨ o.stage = .hint)) ∨
      (r.resolve fs record true).1 = .ok .cancelled ∨
      (r.resolve fs record true).1 = .error (.file (.missingRoot r.root))) :=
  ⟨fun _ => resolve_found_iff, resolve_notFound_iff, fun _ _ _ h => h.resolve.2,
    r.scans_resolve_le fs record, fun _ _ => scans_unsearched, r.resolve_cancelled fs record⟩

-- The location of the record is stale and no line has its static text, but one has the text without
-- the first word. The other variants and the message, which fits as well, are not scanned for. A
-- cancelled search ends in its first scan.
theorem resolve_in_order_variant :
    let file : FilePath := ⟨['a']⟩
    let fs : Files := ⟨.dir [(['a'], .file "d c\nb c\n".toUTF8)], []⟩
    let s : SearchSettings := { Settings.default.search with minSearchLen := 1 }
    let r : Resolver := ⟨⟨['.']⟩, s, some [file], 4⟩
    let record : Record := ⟨[], .info, ['c'], none, .single Record.rootName [], [],
      some ⟨⟨['e']⟩, 3⟩, none, some ⟨"a b c".toList, []⟩⟩
    (r.resolve fs record false).1 = .ok (.found ⟨file, 1, 40, .variant⟩) ∧
    (r.resolve fs record false).2.scans = 6 ∧
    (r.resolve fs record true).1 = .ok .cancelled ∧
    (r.resolve fs record true).2.scans = 5 ∧
    (r.resolve fs record true).2.scans ≤ r.scans + 7 := by
  intro file fs s r record
  have ⟨found, _, scans, most, _, _⟩ := resolve_in_order r fs record
  let static : Trial := .scan .staticString "a b c".toList
  let variant : Trial := .scan .variant "b c".toList
  have hv : variant.outcome fs record false r = .ok (some ⟨file, 1, 40, .variant⟩) :=
    ok_of_toOption <| by decide +kernel
  have hd : Decides fs record false r [cache, hint, static] variant := by
    refine ⟨⟨_, by rfl⟩, ?_, hv ▸ nofun⟩
    simp only [List.forall_mem_cons, List.not_mem_nil, false_implies, implies_true, and_true]
    exact ⟨ok_of_toOption <| by decide +kernel, ok_of_toOption <| by decide +kernel,
      ok_of_toOption <| by decide +kernel⟩
  have hc : static.outcome fs record true r = .error .cancelled := by rfl
  have hd' : Decides fs record true r [cache, hint] static := by
    refine ⟨⟨_, by rfl⟩, ?_, hc ▸ nofun⟩
    simp only [List.forall_mem_cons, List.not_mem_nil, false_implies, implies_true, and_true]
    exact ⟨ok_of_toOption <| by decide +kernel, ok_of_toOption <| by decide +kernel⟩
  refine ⟨(found _).mpr ⟨_, _, hd, hv, rfl⟩, (scans _ _ _ hd).trans <| by decide +kernel, ?_,
    (scans _ _ _ hd').trans <| by decide +kernel, most true⟩
  rw [hd'.resolve.1, hc]
  rfl

end Resolver

end LogOrigin
