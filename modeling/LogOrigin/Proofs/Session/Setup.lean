import LogOrigin.Proofs.Callers.Expansion
import LogOrigin.Proofs.Search.Repository
import LogOrigin.Proofs.Session.Tracking

-- What a session was made with: its settings, its advisers and its repository. They stay the same
-- whatever happens to the session.

namespace LogOrigin

namespace Expansion

variable {σ : Type} (a : Advisers σ) (s : CallerSettings) (fs : Files) (ctx : ExpansionContext)
variable (cancelled : Bool) (n : CallerNode) (i : CallerInfo) (r : Resolver) (w : Surroundings σ)

theorem same_usages (file : FilePath) (symbol : Symbol) :
    Resolver.SameRepository r (usages a fs file symbol r).2 := by
  have ofText (name : Text) : Resolver.SameRepository r (usages.ofText fs name r).2 := by
    have h := r.same_sources fs
    unfold usages.ofText
    generalize r.sources fs = p at h ⊢
    obtain ⟨found, r'⟩ := p
    cases found <;> exact h
  unfold usages
  split
  case h_1 => exact .refl r
  case h_2 => exact ofText _
  case h_3 => exact ofText _

theorem same_gather : Resolver.SameRepository r (gather a s fs cancelled i r).2 := by
  unfold gather
  split
  case h_1 => exact .refl r
  case h_2 =>
    split
    case h_1 => exact .refl r
    case h_2 symbol _ =>
      have h := same_usages a fs r i.file symbol
      generalize usages a fs i.file symbol r = p at h ⊢
      obtain ⟨found, r'⟩ := p
      cases found
      case error => exact h
      case ok    =>
        dsimp only
        split
        case isTrue  => exact h
        case isFalse => split <;> exact h

theorem same_expand :
    Resolver.SameRepository w.resolver (expand a s fs ctx cancelled n w).2.resolver := by
  have h := same_gather a s fs cancelled n.info w.resolver
  cases hn : n.isExpanded
  case true  => rw [expand_expanded hn]; exact .refl _
  case false =>
    have ⟨_, _, he, x⟩ := expand_ends a s fs ctx cancelled w hn
    rw [he]
    generalize calls a s fs ctx cancelled n w = log at x
    cases x
    case known => exact .refl _
    case busy  => exact .refl _
    all_goals simp_all

end Expansion

namespace Session

variable {σ : Type} {s t u : Session σ}

structure SameSetup (s t : Session σ) : Prop where
  settings   : t.settings = s.settings
  advisers   : t.advisers = s.advisers
  repository : Resolver.SameRepository s.resolver t.resolver

namespace SameSetup

theorem refl (s : Session σ) : SameSetup s s :=
  ⟨rfl, rfl, .refl _⟩

theorem trans (h : SameSetup s t) (h' : SameSetup t u) : SameSetup s u where
  settings   := h'.settings.trans h.settings
  advisers   := h'.advisers.trans h.advisers
  repository := h.repository.trans h'.repository

theorem setRecord (h : SameSetup s t) (id : Nat) (r : Record) : SameSetup s (t.setRecord id r) :=
  ⟨h.settings, h.advisers, h.repository⟩

end SameSetup

variable (s : Session σ) (fs : Files) (id : Nat)

theorem same_load (text : Text) : SameSetup s (s.load text).2 := by
  rcases s.load_cases text with ⟨e, he⟩ | ⟨n, store, he⟩
  all_goals
    rw [he]
    exact ⟨rfl, rfl, ⟨rfl, rfl⟩⟩

theorem same_loadFile (file : FilePath) : SameSetup s (s.loadFile fs file).2 := by
  unfold loadFile
  split
  case h_1 => exact s.same_load _
  case h_2 => exact .refl s

theorem same_beginLocate : SameSetup s (s.beginLocate id).2 := by
  cases hr : s.store.get id
  case error => rw [beginLocate_unknown hr]; exact .refl s
  case ok    =>
    cases hf : s.inFlight id
    case true  => rw [beginLocate_inFlight hr hf]; exact .refl s
    case false => rw [beginLocate_free hr hf]; exact ⟨rfl, rfl, .refl _⟩

theorem same_analyze : SameSetup s (s.analyze id).2 := by
  have hm m : SameSetup s { s with surroundings.memory := m } := ⟨rfl, rfl, .refl _⟩
  obtain h | ⟨m, h | ⟨r, a, _, h⟩⟩ := s.analyze_cases id
  all_goals rw [h]
  case inl     => exact .refl s
  case inr.inl => exact hm m
  case inr.inr => exact (hm m).setRecord ..

theorem same_run (p : PendingLocate) : SameSetup s (s.run fs p).2 :=
  ⟨rfl, rfl, (s.resolver.continues_resolve fs p.record _).toSameRepository⟩

theorem same_finish (d : CompletedLocate) : SameSetup s (s.finish d).2 := by
  obtain h | h | ⟨r, _, h⟩ := s.finish_cases d
  all_goals rw [h]
  case inl     => exact .refl s
  case inr.inl => exact ⟨rfl, rfl, .refl _⟩
  case inr.inr => exact ⟨rfl, rfl, .refl _⟩

theorem same_locate : SameSetup s (s.locate fs id).2 := by
  obtain h | ⟨r, _, h⟩ := s.locate_cases fs id
  all_goals rw [h]
  case inl => exact .refl s
  case inr => exact ⟨rfl, rfl, (s.resolver.continues_resolve fs r false).toSameRepository⟩

theorem same_location : SameSetup s (s.location fs id).2 := by
  obtain h | h := s.location_cases fs id
  all_goals rw [h]
  case inl => exact .refl s
  case inr => exact s.same_locate fs id

theorem same_expandNode (ctx : ExpansionContext) (n : CallerNode) :
    SameSetup s (s.expandNode fs ctx n).2 :=
  ⟨rfl, rfl, Expansion.same_expand ..⟩

theorem same_callers : SameSetup s (s.callers fs id).2 := by
  have hl := s.same_location fs id
  obtain h | ⟨ctx, n, r, h⟩ := s.callers_cases fs id
  all_goals rw [h]
  case inl => exact hl
  case inr => exact hl.trans <| .setRecord (same_expandNode ..) ..

theorem same_expand (way : List Nat) : SameSetup s (s.expand fs id way).2 := by
  obtain h | ⟨ctx, n, r, h⟩ := s.expand_cases fs id way
  all_goals rw [h]
  case inl => exact .refl s
  case inr => exact .setRecord (same_expandNode ..) ..

-- A token that was cancelled had been issued.
def Bounded (s : Session σ) : Prop :=
  ∀ t ∈ s.tokens.cancelled, t.number < s.tokens.issued

variable {s}

theorem Bounded.of_tokens (h : s.Bounded) (ht : t.tokens = s.tokens) : t.Bounded := by
  rwa [Bounded, ht]

theorem Bounded.cancelSelection (h : s.Bounded)
    (hz : ∀ z, s.selection = some z → z.token.number < s.tokens.issued) :
    s.cancelSelection.Bounded := by
  unfold Session.cancelSelection
  split
  case h_1 z hz' => exact List.forall_mem_cons.mpr ⟨hz z hz', h⟩
  case h_2       => exact h

end Session

namespace SharedSession

variable {σ : Type} {x y : SharedSession σ} {h : History} {e : Event} {time : Nat}

theorem same_step (st : Step x time e y) : Session.SameSetup x.session y.session := by
  cases st
  case load text        => exact x.session.same_load text
  case loadFile fs file => exact x.session.same_loadFile fs file
  case begin id         => exact x.session.same_beginLocate id
  case run fs _         => exact x.session.same_run fs _
  case finish           => exact x.session.same_finish _
  case drop             => exact ⟨rfl, rfl, .refl _⟩
  case cancel           => exact ⟨rfl, rfl, .refl _⟩
  case analyze id       => exact x.session.same_analyze id
  case locate fs id     => exact x.session.same_locate fs id
  case callers fs id    => exact x.session.same_callers fs id
  case expand fs id way => exact x.session.same_expand fs id way

-- The source files are searched with the settings of the session.
theorem Reachable.search_settings (r : Reachable h x) :
    x.session.resolver.settings = x.session.settings.search := by
  induction r
  case new          => rfl
  case step _ st hi =>
    have h := same_step st
    rw [h.repository.settings, h.settings, hi]

theorem bounded_step (hb : x.session.Bounded)
    (hz : ∀ z, x.session.selection = some z → z.token.number < x.session.tokens.issued)
    (st : Step x time e y) : y.session.Bounded := by
  have load text : (x.session.load text).2.Bounded := by
    rcases x.session.load_cases text with ⟨e, he⟩ | ⟨n, store, he⟩
    case inl => rwa [he]
    case inr => rw [he]; exact (hb.cancelSelection hz).of_tokens rfl
  cases st
  case load text        => exact load text
  case loadFile fs file =>
    unfold Session.loadFile
    split
    case h_1 => exact load _
    case h_2 => exact hb
  case begin id         =>
    cases hr : x.session.store.get id
    case error => rwa [Session.beginLocate_unknown hr]
    case ok    =>
      cases hf : x.session.inFlight id
      case true  => rwa [Session.beginLocate_inFlight hr hf]
      case false =>
        rw [Session.beginLocate_free hr hf]
        exact fun t ht => Nat.lt_succ_of_lt <| hb.cancelSelection hz t ht
  case run              => exact hb
  case finish           => exact hb.of_tokens (Session.tokens_finish ..)
  case drop             => exact hb
  case cancel hi        => exact List.forall_mem_cons.mpr ⟨hi, hb⟩
  case analyze id       => exact hb.of_tokens (Session.continues_analyze ..).tokens
  case locate fs id     => exact hb.of_tokens (Session.continues_locate ..).tokens
  case callers fs id    => exact hb.of_tokens (Session.continues_callers ..).tokens
  case expand fs id way => exact hb.of_tokens (Session.continues_expand ..).tokens

theorem Reachable.bounded (r : Reachable h x) : x.session.Bounded := by
  induction r
  case new           => exact nofun
  case step hr st hi => exact bounded_step hi hr.tracked.selected st

end SharedSession

end LogOrigin
