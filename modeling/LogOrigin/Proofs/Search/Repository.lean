import LogOrigin.Search.Resolver

-- What a resolver remembers. Its repository stays the same, and for the same files it finds the
-- same sources again.

namespace LogOrigin

theorem ok_of_toOption {α : Type} {x : Except Failure α} {y : α} (h : x.toOption = some y) :
    x = .ok y := by
  cases x <;> cases h
  rfl

theorem Discovery.ofRoot_error {fs : Files} {root : FilePath} {s : SearchSettings} {e : Failure}
    (h : ofRoot fs root s = .error e) : e = .file (.missingRoot root) := by
  unfold ofRoot ofPolicy at h
  split at h
  case h_1 => cases h
  case h_2 => exact (Except.error.inj h).symm

namespace Resolver

variable {r r' r'' : Resolver} {fs : Files}

theorem sources_error {e : Failure} (h : (r.sources fs).1 = .error e) :
    e = .file (.missingRoot r.root) := by
  unfold sources at h
  split at h
  case h_1 => cases h
  case h_2 =>
    split at h
    case h_1    => cases h
    case h_2 hd => exact Except.error.inj h ▸ Discovery.ofRoot_error hd

theorem sources_again {found : Except Failure (List FilePath)} (h : r.sources fs = (found, r')) :
    r'.sources fs = (found, r') := by
  unfold sources at h
  split at h
  case h_1 files hf =>
    cases h
    simp [sources, hf]
  case h_2 hf =>
    split at h
    case h_1 => cases h; rfl
    case h_2 he =>
      cases h
      simp [sources, hf, he]

structure SameRepository (r r' : Resolver) : Prop where
  root     : r'.root = r.root
  settings : r'.settings = r.settings

theorem SameRepository.refl (r : Resolver) : SameRepository r r :=
  ⟨rfl, rfl⟩

theorem SameRepository.trans (h : SameRepository r r') (h' : SameRepository r' r'') :
    SameRepository r r'' :=
  ⟨h'.root.trans h.root, h'.settings.trans h.settings⟩

-- A later state of a resolver that has been used with some files.
structure Continues (fs : Files) (r r' : Resolver) : Prop extends SameRepository r r' where
  sources : (r'.sources fs).1 = (r.sources fs).1

namespace Continues

theorem refl (fs : Files) (r : Resolver) : Continues fs r r :=
  ⟨.refl r, rfl⟩

theorem trans (h : Continues fs r r') (h' : Continues fs r' r'') : Continues fs r r'' :=
  ⟨h.toSameRepository.trans h'.toSameRepository, h'.sources.trans h.sources⟩

theorem count (h : Continues fs r r') (n : Nat) : Continues fs r { r' with scans := n } := by
  refine h.trans ⟨⟨rfl, rfl⟩, ?_⟩
  unfold Resolver.sources
  dsimp only
  split
  case h_1 => rfl
  case h_2 => split <;> rfl

end Continues

theorem same_sources (r : Resolver) (fs : Files) : SameRepository r (r.sources fs).2 := by
  unfold sources
  split
  case h_1 => exact .refl r
  case h_2 => split <;> exact ⟨rfl, rfl⟩

theorem continues_sources (r : Resolver) (fs : Files) : Continues fs r (r.sources fs).2 :=
  ⟨r.same_sources fs, congrArg Prod.fst (sources_again rfl)⟩

theorem continues_search (r : Resolver) (fs : Files) (text : Text) (cancelled : Bool) :
    Continues fs r (r.search fs text cancelled).2 := by
  have h := r.continues_sources fs
  unfold search
  generalize r.sources fs = p at h ⊢
  obtain ⟨found, r'⟩ := p
  dsimp only
  split
  case isTrue  => exact .refl fs r
  case isFalse =>
    cases found
    case error => exact h
    case ok    => cases cancelled <;> exact h.count _

theorem continues_firstMatch (fs : Files) (cancelled : Bool) (l : List (Stage × Text))
    (r : Resolver) : Continues fs r (firstMatch fs cancelled l r).2 := by
  induction l generalizing r
  case nil         => exact .refl fs r
  case cons e l hi =>
    have h := r.continues_search fs e.2 cancelled
    unfold firstMatch
    generalize r.search fs e.2 cancelled = p at h ⊢
    obtain ⟨found, r'⟩ := p
    rcases found with _ | _ | _
    case error   => exact h
    case ok.nil  => exact h.trans (hi r')
    case ok.cons => exact h

theorem continues_ofFileName (r : Resolver) (fs : Files) (record : Record) :
    Continues fs r (r.ofFileName fs record).2 := by
  have h := r.continues_sources fs
  unfold ofFileName
  split
  case h_1 => exact .refl fs r
  case h_2 =>
    generalize r.sources fs = p at h ⊢
    obtain ⟨found, r'⟩ := p
    cases found <;> exact h

theorem continues_ofSources (r : Resolver) (fs : Files) (record : Record) (cancelled : Bool) :
    Continues fs r (r.ofSources fs record cancelled).2 := by
  have h := continues_firstMatch fs cancelled (needles record) r
  unfold ofSources
  generalize firstMatch fs cancelled (needles record) r = p at h ⊢
  obtain ⟨found, r'⟩ := p
  rcases found with _ | _ | _
  case error   => exact h
  case ok.some => exact h
  case ok.none =>
    cases cancelled
    case false => exact h.trans (r'.continues_ofFileName fs record)
    case true  => exact h

theorem continues_resolve (r : Resolver) (fs : Files) (record : Record) (cancelled : Bool) :
    Continues fs r (r.resolve fs record cancelled).2 := by
  show Continues fs r (r.stages fs record cancelled).2
  unfold stages
  split
  case h_1 => exact .refl fs r
  case h_2 => exact r.continues_ofSources fs record cancelled

end Resolver

theorem FileName.mem_of_best? {root file : FilePath} {stems : List Text} {files : List FilePath}
    (h : best? root stems files = some file) : file ∈ files := by
  obtain ⟨globs, _, h⟩ := List.exists_of_findSome?_eq_some h
  obtain ⟨g, _, h⟩ := List.exists_of_findSome?_eq_some h
  exact List.mem_of_find?_eq_some h

namespace Resolver

variable {r : Resolver} {fs : Files} {record : Record} {cancelled : Bool} {o : Origin}

theorem ofCache?_found {root : FilePath} (h : ofCache? fs root record = some o) :
    ∃ l file, record.location = some l ∧ Hint.translate? fs root l.file = some file ∧
      o = .ofLocation .cache ⟨file, l.line⟩ := by
  obtain ⟨l, hl, h⟩ := Option.bind_eq_some_iff.mp h
  obtain ⟨file, hf, rfl⟩ := Option.map_eq_some_iff.mp h
  exact ⟨l, file, hl, hf, rfl⟩

theorem ofHints?_found {root : FilePath} (h : ofHints? fs root record = some o) :
    ∃ l file, l ∈ Hint.locations record.message ∧ Hint.translate? fs root l.file = some file ∧
      o = .ofLocation .hint ⟨file, l.line⟩ := by
  obtain ⟨l, hl, h⟩ := List.exists_of_findSome?_eq_some h
  obtain ⟨file, hf, rfl⟩ := Option.map_eq_some_iff.mp h
  exact ⟨l, file, hl, hf, rfl⟩

theorem ofFileName_found (h : (r.ofFileName fs record).1 = .ok (some o)) :
    ∃ files file, (r.sources fs).1 = .ok files ∧ file ∈ files ∧
      o = .ofLocation .filename ⟨file, 0⟩ := by
  unfold ofFileName at h
  split at h
  case h_1       => cases h
  case h_2 stems =>
    generalize r.sources fs = p at h ⊢
    obtain ⟨found, r'⟩ := p
    cases found
    case error    => cases h
    case ok files =>
      obtain ⟨file, hf, rfl⟩ := Option.map_eq_some_iff.mp (Except.ok.inj h)
      exact ⟨files, file, rfl, FileName.mem_of_best? hf, rfl⟩

theorem ofSources_found (h : (r.ofSources fs record cancelled).1 = .ok (some o)) :
    (firstMatch fs cancelled (needles record) r).1 = .ok (some o) ∨
    ∃ files file, (r.sources fs).1 = .ok files ∧ file ∈ files ∧
      o = .ofLocation .filename ⟨file, 0⟩ := by
  have hs := (continues_firstMatch fs cancelled (needles record) r).sources
  unfold ofSources at h
  generalize firstMatch fs cancelled (needles record) r = p at h hs ⊢
  obtain ⟨found, r'⟩ := p
  rcases found with _ | _ | _
  case error   => cases h
  case ok.some => exact .inl h
  case ok.none =>
    cases cancelled
    case true  => cases h
    case false => exact .inr (hs ▸ ofFileName_found h)

-- The stages that can have found an origin.
theorem resolve_found (h : (r.resolve fs record cancelled).1 = .ok (.found o)) :
    ofCache? fs r.root record = some o ∨ ofHints? fs r.root record = some o ∨
    (firstMatch fs cancelled (needles record) r).1 = .ok (some o) ∨
    ∃ files file, (r.sources fs).1 = .ok files ∧ file ∈ files ∧
      o = .ofLocation .filename ⟨file, 0⟩ := by
  have h : (r.stages fs record cancelled).1 = .ok (some o) := by
    change resolutionOf (r.stages fs record cancelled).1 = .ok (.found o) at h
    unfold resolutionOf at h
    split at h
    case h_1 hs =>
      cases h
      exact hs
    all_goals cases h
  unfold stages at h
  split at h
  case h_1 hc =>
    cases h
    rcases Option.or_eq_some_iff.mp hc with hc | ⟨_, hc⟩
    case inl => exact .inl hc
    case inr => exact .inr <| .inl hc
  case h_2    => exact .inr <| .inr <| ofSources_found h

-- A search that is not called off fails only if the repository is gone.
section Live

variable {text : Text} {e : Failure}

theorem search_error (h : (r.search fs text false).1 = .error e) :
    e = .file (.missingRoot r.root) := by
  unfold search at h
  dsimp only at h
  split at h
  case isTrue  => cases h
  case isFalse =>
    split at h
    case h_1 hs => cases h; exact sources_error <| congrArg Prod.fst hs
    case h_2    => cases h

theorem firstMatch_error {l : List (Stage × Text)} (h : (firstMatch fs false l r).1 = .error e) :
    e = .file (.missingRoot r.root) := by
  induction l generalizing r
  case nil         => cases h
  case cons c l hi =>
    have hr := (r.continues_search fs c.2 false).root
    unfold firstMatch at h
    split at h
    case h_1 hs => cases h; exact search_error <| congrArg Prod.fst hs
    case h_2    => cases h
    case h_3 hs =>
      rw [hs] at hr
      exact hr ▸ hi h

theorem ofFileName_error (h : (r.ofFileName fs record).1 = .error e) :
    e = .file (.missingRoot r.root) := by
  unfold ofFileName at h
  split at h
  case h_1 => cases h
  case h_2 =>
    split at h
    case h_1 hs => cases h; exact sources_error <| congrArg Prod.fst hs
    case h_2    => cases h

theorem ofSources_error (h : (r.ofSources fs record false).1 = .error e) :
    e = .file (.missingRoot r.root) := by
  have hr := (continues_firstMatch fs false (needles record) r).root
  unfold ofSources at h
  split at h
  case h_1 hf =>
    rw [hf] at hr
    exact hr ▸ ofFileName_error h
  case h_2    => exact firstMatch_error h

theorem resolve_live (r : Resolver) (fs : Files) (record : Record) :
    (∃ o, (r.resolve fs record false).1 = .ok (.found o)) ∨
    (r.resolve fs record false).1 = .ok .notFound ∨
    (r.resolve fs record false).1 = .error (.file (.missingRoot r.root)) := by
  show (∃ o, resolutionOf (r.stages fs record false).1 = .ok (.found o)) ∨
    resolutionOf (r.stages fs record false).1 = .ok .notFound ∨
    resolutionOf (r.stages fs record false).1 = .error (.file (.missingRoot r.root))
  unfold stages
  split
  case h_1 o _ => exact .inl ⟨o, rfl⟩
  case h_2     =>
    rcases hf : (r.ofSources fs record false).1 with _ | _ | o
    case error   => exact .inr <| .inr <| by rw [ofSources_error hf]; rfl
    case ok.none => exact .inr <| .inl rfl
    case ok.some => exact .inl ⟨o, rfl⟩

end Live

end Resolver

end LogOrigin
