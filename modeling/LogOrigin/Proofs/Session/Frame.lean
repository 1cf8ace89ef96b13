import LogOrigin.Proofs.Session.Calm

-- The expansion of a node in the tree of a record is nothing to the other positions in the tree, to
-- the other records, and to the selection.

namespace LogOrigin.SharedSession

variable {σ : Type} {x : SharedSession σ} {h : History} {id : Nat} {tree : CallerNode}

-- An expansion has nothing to show if and only if the way leads nowhere, and then it changes
-- nothing. Otherwise the node at the end of the way has its children from then on, and says the same
-- as before. So does the node at any other position that is not below it, which also has as many
-- children as before or none yet. All that changes about the records is the tree.
theorem expand_touches_one_position (r : Reachable h x) (ht : x.session.tree? id = some tree)
    (fs : Files) (way : List Nat) :
    let s := x.session
    let answer := (s.expand fs id way).1
    let t := (s.expand fs id way).2
    (answer = .ok none ↔ tree.descendant? way = none) ∧
    (tree.descendant? way = none → t = s) ∧
    ∀ n, tree.descendant? way = some n → ∃ m tree' record,
      answer = .ok (some m) ∧
      m.info = n.info ∧ m.loading = n.loading ∧ m.isExpanded = true ∧
      t.tree? id = some tree' ∧ tree'.descendant? way = some m ∧
      (∀ q, ¬way <+: q → (tree'.descendant? q).map CallerNode.face =
        (tree.descendant? q).map CallerNode.face) ∧
      s.store.get id = .ok record ∧
      t.store = s.store.set id { record with callers := some tree' } ∧
      Session.Continues s t := by
  intro s answer t
  cases hd : tree.descendant? way
  case none   =>
    have he := Session.expand_nowhere fs ht hd
    have ha : answer = .ok none := congrArg Prod.fst he
    have hs : t = s := congrArg Prod.snd he
    exact ⟨iff_of_true ha rfl, fun _ => hs, nofun⟩
  case some n =>
    obtain ⟨record, ctx, hr, _, he⟩ := Session.expand_somewhere fs ht hd
    let m := (s.expandNode fs ctx n).1
    have ha : answer = .ok (some m) := congrArg Prod.fst he
    have hs : t = (s.expandNode fs ctx n).2.setRecord id
      { record with callers := some (tree.replaceAt way m) } := congrArg Prod.snd he
    have loading : n.loading = false := (r.calm.idle id tree ht).loading hd
    refine ⟨by simp [ha], nofun, ?_⟩
    rintro _ ⟨⟩
    refine ⟨m, tree.replaceAt way m, record, ha, ?info, ?loading, ?expanded, ?tree, ?there,
      fun q hq => CallerNode.face_descendant?_replaceAt hq m, hr, ?store, ?continues⟩
    case info      => exact Expansion.info_expand ..
    case loading   => exact (Expansion.loading_expand _ _ fs ctx false _ loading).trans loading.symm
    case expanded  => exact Expansion.isExpanded_expand _ _ fs ctx n r.calm.settled
    case tree      =>
      have hr : (s.expandNode fs ctx n).2.store.get id = .ok record := hr
      rw [hs, Session.tree?_setRecord_self hr]
    case there     => exact CallerNode.descendant?_replaceAt hd m
    case store     => rw [hs]; rfl
    case continues => exact s.continues_expand fs id way

section TwoCallers

-- A session with one source file, for whose only function two calls are known.
def paired : Session Unit :=
  .new ⟨['.']⟩ Settings.default ⟨.absent, symbols⟩ ()
where
  file : FilePath := ⟨['a', '.', 'b']⟩
  files : Files := ⟨.dir [(file.text, .file .empty)], []⟩
  symbols : SymbolIndex :=
    ⟨fun _ _ _ => some ⟨['f'], 3, 0, 4⟩, fun _ _ _ _ => .known [⟨file, 7⟩, ⟨file, 9⟩]⟩
  log : Text := file.text ++ [':', '6']

-- The same session after the calls have been listed for a record.
def listed : Session Unit :=
  ((paired.load paired.log).2.callers paired.files 0).2

theorem reachable_listed : Reachable [.listed 0, .loaded (paired.load paired.log).1] ⟨listed, []⟩ :=
  have r : Reachable [] ⟨paired, []⟩ := .new ..
  (r.step <| .load paired.log).step <| .callers paired.files 0

-- The first caller is expanded. The second one and the root look the same as before.
theorem expand_touches_one_position_sibling :
    let t := (listed.expand paired.files 0 [0]).2
    let face (s : Session Unit) (q : List Nat) := ((s.tree? 0).bind (·.descendant? q)).map (·.face)
    (face listed [0]).map (·.2.2) = some none ∧ (face t [0]).map (·.2.2) ≠ some none ∧
    (face listed [1]).isSome ∧ face t [1] = face listed [1] ∧
    face t [] = face listed [] := by
  intro t face
  have first : (face listed [0]).map (·.2.2) = some none := by decide +kernel
  have second : (face listed [1]).isSome := by decide +kernel
  obtain ⟨tree, ht⟩ : ∃ tree, listed.tree? 0 = some tree := by
    cases ht : listed.tree? 0
    case none      => simp [face, ht] at first
    case some tree => exact ⟨tree, rfl⟩
  obtain ⟨n, hn⟩ : ∃ n, tree.descendant? [0] = some n := by
    cases hn : tree.descendant? [0]
    case none   => simp [face, ht, hn] at first
    case some n => exact ⟨n, rfl⟩
  obtain ⟨_, _, frame⟩ := expand_touches_one_position reachable_listed ht paired.files [0]
  obtain ⟨m, tree', _, _, _, _, hm, ht', there, others, _⟩ := frame n hn
  refine ⟨first, ?_, second, ?_, ?_⟩
  · intro h
    simp only [face, t, ht', Option.bind_some, there, Option.map_some, CallerNode.face,
      Option.some.injEq, Option.map_eq_none_iff] at h
    simp [CallerNode.isExpanded, h] at hm
  · simpa [face, t, ht, ht'] using others [1] (by decide)
  · simpa [face, t, ht, ht'] using others [] (by decide)

end TwoCallers

end LogOrigin.SharedSession
