import LogOrigin.Proofs.Callers.Attempt
import LogOrigin.Proofs.Callers.Tree

-- Confidences are numbers from zero to one, wherever they come from: replies, the words that call
-- sites share with a log, or the fixed values for what has not been ranked.

namespace LogOrigin

namespace Confidence

variable {x : Binary64}

theorem inUnit_zero : InUnit .zero :=
  ⟨by decide, by decide, by decide⟩

theorem inUnit_one : InUnit .one :=
  ⟨by decide, by decide, by decide⟩

theorem inUnit_fallback : InUnit fallback :=
  ⟨by decide, by decide, by decide⟩

end Confidence

namespace RankedCall

theorem inUnit_ofJson (v : Json) : Confidence.InUnit (ofJson v).confidence := by
  unfold ofJson
  cases (v.get? "confidence".toList).bind confidenceOf
  case none   => exact Confidence.inUnit_fallback
  case some x => exact Confidence.clamp_inUnit x

theorem inUnit_ofReply {t : Text} {r : RankedCall} (h : r ∈ ofReply t) :
    Confidence.InUnit r.confidence := by
  unfold ofReply at h
  split at h
  case h_1 =>
    obtain ⟨v, _, rfl⟩ := List.mem_map.mp h
    exact inUnit_ofJson v
  case h_2 => cases h

end RankedCall

theorem Lexical.inUnit_rank {request : RankRequest} {r : RankedCall} (h : r ∈ rank request) :
    Confidence.InUnit r.confidence := by
  obtain ⟨c, _, rfl⟩ := List.mem_map.mp <| List.mem_mergeSort.mp h
  exact Confidence.clamp_inUnit _

namespace Ranking

variable {i : CallerInfo} {n : CallerNode}

theorem confidence_assign {ranked : List RankedCall} {l : List CallCandidate}
    (h : i ∈ (assign ranked l).1) : ∃ r ∈ ranked, i.confidence = r.confidence := by
  induction ranked generalizing l
  case nil            => cases h
  case cons r rank hi =>
    unfold assign at h
    split at h
    case h_1 =>
      have ⟨r', hr, he⟩ := hi h
      exact ⟨r', List.mem_cons_of_mem _ hr, he⟩
    case h_2 =>
      cases h
      case head   => exact ⟨r, List.mem_cons_self .., rfl⟩
      case tail h =>
        have ⟨r', hr, he⟩ := hi h
        exact ⟨r', List.mem_cons_of_mem _ hr, he⟩

-- A confidence is one of those in the ranking, unless nothing has been said about the call site.
theorem confidence_apply {candidates : List CallCandidate} {ranked : List RankedCall}
    (h : n ∈ apply candidates ranked) :
    (∃ r ∈ ranked, n.info.confidence = r.confidence) ∨ n.info.confidence = .zero := by
  rcases List.mem_append.mp h with h | h
  case inl =>
    obtain ⟨i, hi, rfl⟩ := List.mem_map.mp h
    exact .inl <| confidence_assign <| List.mem_mergeSort.mp hi
  case inr =>
    obtain ⟨c, _, rfl⟩ := List.mem_map.mp h
    exact .inr rfl

end Ranking

def CallerInfo.InUnit (i : CallerInfo) : Prop :=
  Confidence.InUnit i.confidence

theorem CallerNode.inUnit_root (file : FilePath) (line : Nat) :
    (root file line).All CallerInfo.InUnit :=
  all_ofInfo Confidence.inUnit_one

namespace Expansion

variable {σ : Type} {a : Advisers σ} {s : CallerSettings} {fs : Files} {ctx : ExpansionContext}
variable {cancelled : Bool} {n : CallerNode} {w w' : Surroundings σ}
variable {children : Option (List CallerNode)} {log : List Oracle.Call} {trees : List CallerNode}

-- What is said about a request: by the words of the call sites, in a reply, or nothing at all.
inductive Regular (request : RankRequest) : Except Failure (List RankedCall) → Prop where
  | lexical : Regular request (.ok (Lexical.rank request))
  | reply (t : Text) : Regular request (.ok (RankedCall.ofReply t))
  | failed (e : Failure) : Regular request (.error e)

-- Trees over one cache, which are expanded one node after the other. Files, advisers and contexts
-- may be different ones each time, and in between others may use the oracle and look for source
-- files.
inductive Grown (s : CallerSettings) : Surroundings σ → List CallerNode → Prop where
  | initial (r : Resolver) (m : σ) :
    Grown s ⟨.empty, r, m⟩ []
  | plant {w : Surroundings σ} {trees : List CallerNode} {n : CallerNode} :
    n.All CallerInfo.InUnit → Grown s w trees → Grown s w (n :: trees)
  | expand {w : Surroundings σ} {l m : List CallerNode} {tree n : CallerNode} {way : List Nat}
      (a : Advisers σ) (fs : Files) (ctx : ExpansionContext) (cancelled : Bool) :
    Grown s w (l ++ tree :: m) →
    tree.descendant? way = some n →
    (∀ request, .rank request ∈ calls a s fs ctx cancelled n w →
      Regular request (a.oracle.rank request w.memory).1) →
    Grown s (Expansion.expand a s fs ctx cancelled n w).2
      (l ++ tree.replaceAt way (Expansion.expand a s fs ctx cancelled n w).1 :: m)
  | clear {w : Surroundings σ} {trees : List CallerNode} :
    Grown s w trees → Grown s { w with cache := w.cache.clear } trees
  | elsewhere {w : Surroundings σ} {trees : List CallerNode} (r : Resolver) (m : σ) :
    Grown s w trees → Grown s ⟨w.cache, r, m⟩ trees

theorem Regular.inUnit {request : RankRequest} {ranked : List RankedCall}
    (h : Regular request (.ok ranked)) : ∀ r ∈ ranked, Confidence.InUnit r.confidence := by
  intro r hr
  cases h
  case lexical => exact Lexical.inUnit_rank hr
  case reply   => exact RankedCall.inUnit_ofReply hr

theorem inUnit_stored {candidates : List CallCandidate} {ranked : List RankedCall}
    (h : ∀ r ∈ ranked, Confidence.InUnit r.confidence) :
    ∀ n ∈ stored candidates ranked, n.All CallerInfo.InUnit := by
  intro n hn
  obtain ⟨n', hn', rfl⟩ := List.mem_map.mp hn
  apply CallerNode.all_ofInfo
  rcases Ranking.confidence_apply hn' with ⟨r, hr, he⟩ | he
  case inl => exact show Confidence.InUnit _ from he ▸ h r hr
  case inr => exact show Confidence.InUnit _ from he ▸ Confidence.inUnit_zero

theorem inUnit_inOrder (candidates : List CallCandidate) :
    ∀ n ∈ inOrder candidates, n.info.InUnit := by
  intro n hn
  obtain ⟨c, _, rfl⟩ := List.mem_map.mp hn
  exact Confidence.inUnit_fallback

theorem inUnit_fallback (i : CallerInfo) (symbol : Symbol) (text : Text) (radius : Nat) :
    ∀ n ∈ fallback i symbol text radius, n.info.InUnit := by
  unfold fallback
  split
  case isTrue  => simp
  case isFalse =>
    intro n hn
    obtain rfl := List.mem_singleton.mp hn
    exact Confidence.inUnit_fallback

-- Callers that have not come from a ranking are at most the function itself.
theorem gather_callers {i : CallerInfo} {r r' : Resolver} {l : List CallerNode}
    (h : gather a s fs cancelled i r = (.ok (.callers l), r')) :
    l = [] ∨ ∃ symbol text, l = fallback i symbol text s.snippetRadius := by
  unfold gather at h
  split at h
  case h_1 => cases h
  case h_2 text _ =>
    split at h
    case h_1 => cases h; exact .inl rfl
    case h_2 symbol _ =>
      split at h
      case h_1 => cases h
      case h_2 =>
        split at h
        case isTrue  => cases h
        case isFalse =>
          split at h
          case h_1 => cases h; exact .inr ⟨symbol, text, rfl⟩
          case h_2 => cases h

theorem Ends.inUnit (x : Ends a s fs ctx cancelled n w children w' log)
    (hw : w.cache.All CallerInfo.InUnit)
    (ha : ∀ request, .rank request ∈ log → Regular request (a.oracle.rank request w.memory).1) :
    w'.cache.All CallerInfo.InUnit ∧
      ∀ kids, children = some kids → ∀ k ∈ kids, k.All CallerInfo.InUnit := by
  cases x
  case known l hl =>
    refine ⟨hw, ?_⟩
    rintro _ ⟨⟩
    exact Hydration.all_hydrate hw fun n hn => (hw _ l hl n hn).info
  case busy | calledOff => exact ⟨hw, nofun⟩
  case failed => exact ⟨hw, by simp⟩
  case callers hg =>
    refine ⟨hw, ?_⟩
    rintro _ ⟨⟩
    apply Hydration.all_hydrate hw
    rcases gather_callers hg with rfl | ⟨symbol, text, rfl⟩
    case inl => nofun
    case inr => exact inUnit_fallback n.info symbol text s.snippetRadius
  case unranked =>
    refine ⟨hw, ?_⟩
    rintro _ ⟨⟩
    exact Hydration.all_hydrate hw <| inUnit_inOrder _
  case ranked l r ranked m hk hg ho =>
    have hr := ha _ <| List.mem_singleton_self _
    rw [ho] at hr
    have hs : ∀ n ∈ stored l ranked, n.All CallerInfo.InUnit := inUnit_stored hr.inUnit
    have hc := hw.set n.key hs
    refine ⟨hc, ?_⟩
    rintro _ ⟨⟩
    exact Hydration.all_hydrate hc fun n hn => (hs n hn).info

theorem inUnit_expand (hn : n.All CallerInfo.InUnit) (hw : w.cache.All CallerInfo.InUnit)
    (ha : ∀ request, .rank request ∈ calls a s fs ctx cancelled n w →
      Regular request (a.oracle.rank request w.memory).1) :
    (expand a s fs ctx cancelled n w).1.All CallerInfo.InUnit ∧
      (expand a s fs ctx cancelled n w).2.cache.All CallerInfo.InUnit := by
  cases he : n.isExpanded
  case true  => rw [expand_expanded he]; exact ⟨hn, hw⟩
  case false =>
    have ⟨_, _, hx, x⟩ := expand_ends a s fs ctx cancelled w he
    have ⟨hw, hk⟩ := x.inUnit hw ha
    rw [hx]
    exact ⟨CallerNode.all_iff.mpr ⟨hn.info, hk⟩, hw⟩

theorem Grown.inUnit (g : Grown s w trees) :
    (∀ tree ∈ trees, tree.All CallerInfo.InUnit) ∧ w.cache.All CallerInfo.InUnit := by
  induction g
  case initial => exact ⟨nofun, nofun⟩
  case plant hn _ hi => exact ⟨List.forall_mem_cons.mpr ⟨hn, hi.1⟩, hi.2⟩
  case expand l m tree n way a fs ctx cancelled _ hd ha hi =>
    have ⟨ht, hw⟩ := hi
    have ht' := ht tree <| by simp
    have ⟨hn, hw⟩ := inUnit_expand (ht'.descendant? hd) hw ha
    refine ⟨?_, hw⟩
    intro t h
    rcases List.mem_append.mp h with h | h
    case inl => exact ht t <| List.mem_append_left _ h
    case inr =>
      cases h
      case head   => exact ht'.replaceAt hn way
      case tail h => exact ht t <| List.mem_append_right _ <| List.mem_cons_of_mem _ h
  case clear hi     => exact ⟨hi.1, nofun⟩
  case elsewhere hi => exact hi

-- Whatever a reply says, its confidences are numbers from zero to one. However trees are expanded,
-- as long as the call sites are ranked by the lexical oracle or by replies if at all, so are those
-- of all nodes and of all callers that are known.
theorem confidences_inUnit (g : Grown s w trees) :
    (∀ t, ∀ r ∈ RankedCall.ofReply t, Confidence.InUnit r.confidence) ∧
    (∀ tree ∈ trees, ∀ way m, tree.descendant? way = some m →
      Confidence.InUnit m.info.confidence) ∧
    (∀ k l, w.cache.get? k = some l → ∀ n ∈ l, ∀ way m, n.descendant? way = some m →
      Confidence.InUnit m.info.confidence) :=
  ⟨fun _ _ => RankedCall.inUnit_ofReply, g.inUnit⟩

-- A reply with an infinity and with a number that is too large.
theorem confidences_inUnit_clamped :
    let reply := "[\x7b\"file\": \"a\", \"line\": 7, \"confidence\": \"-inf\"\x7d,
      \x7b\"file\": \"a\", \"line\": \"9\", \"confidence\": 4.2\x7d]".toList
    let oracle : Oracle Unit :=
      ⟨fun _ m => (.ok .empty, m), fun _ m => (.ok (RankedCall.ofReply reply), m)⟩
    let a : Advisers Unit :=
      ⟨oracle, fun _ _ _ => some ⟨['f'], 3, 0, 4⟩,
        fun _ _ _ _ => .known [⟨⟨['a']⟩, 7⟩, ⟨⟨['a']⟩, 9⟩]⟩
    let s : CallerSettings := ⟨1, 3, 0⟩
    let fs : Files := ⟨.dir [(['a'], .file .empty)], []⟩
    let n : CallerNode := .root ⟨['a']⟩ 5
    let w : Surroundings Unit := ⟨.empty, .new ⟨['.']⟩ Settings.default.search, ()⟩
    let ctx : ExpansionContext := ⟨[], none, []⟩
    let x := expand a s fs ctx false n w
    Grown s x.2 [x.1] ∧
      (x.2.cache.get? n.key).map (·.map (·.info.confidence)) = some [.one, .zero] ∧
      ∀ way m, x.1.descendant? way = some m → Confidence.InUnit m.info.confidence := by
  intro reply oracle a s fs n w ctx x
  let candidates : List CallCandidate := [⟨⟨['a']⟩, 7, ['f'], []⟩, ⟨⟨['a']⟩, 9, ['f'], []⟩]
  let ranked : List RankedCall := [⟨⟨['a']⟩, 7, [], .zero, []⟩, ⟨⟨['a']⟩, 9, [], .one, []⟩]
  have hr : RankedCall.ofReply reply = ranked := by decide +kernel
  have g : Grown s w ([] ++ n :: []) := .plant (CallerNode.inUnit_root _ _) <| .initial ..
  have hd : n.descendant? [] = some n := rfl
  have g : Grown s x.2 ([] ++ n.replaceAt [] x.1 :: []) :=
    g.expand a fs ctx false hd fun _ _ => .reply reply
  have ⟨_, hn, _⟩ := confidences_inUnit g
  refine ⟨g, ?_, hn _ <| List.mem_singleton_self _⟩
  have hg : gather a s fs false n.info w.resolver = (.ok (.candidates candidates), w.resolver) :=
    rfl
  have ho : a.oracle.rank (ctx.request candidates) w.memory = (.ok ranked, ()) := by rw [← hr]
  have hs : (stored candidates ranked).map (·.info.confidence) = [.one, .zero] := by
    simp [candidates, ranked, stored, Ranking.apply, Ranking.assign, Ranking.claim?,
      Ranking.extract?, Ranking.agreesInPlace, Ranking.sameFile, FilePath.same, Ranking.infoOf,
      List.mergeSort, List.merge]
    decide
  have hx : x = _ := expand_ranked rfl rfl hg ho
  simp [hx, hs]

end Expansion

end LogOrigin
