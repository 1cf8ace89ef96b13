import LogOrigin.Text.Pattern

-- What a match takes of a text, and what it keeps: each kept part stands in the text, and the
-- pattern of its slot accepts it.

namespace LogOrigin.Text.Pattern

-- The texts that a pattern can take, whatever stands around them.
inductive Accepts : Pattern → Text → Prop where
  | empty    : Accepts .empty []
  | start    : Accepts .start []
  | finish   : Accepts .finish []
  | boundary : Accepts .boundary []
  | char {p : Char → Bool} {c : Char} (h : p c) : Accepts (.char p) [c]
  | run {n : Nat} {p : Char → Bool} {t : Text} (hl : n ≤ t.length) (h : ∀ c ∈ t, p c) :
    Accepts (.run n p) t
  | shyRun {p : Char → Bool} {t : Text} (h : ∀ c ∈ t, p c) : Accepts (.shyRun p) t
  | seq {a b : Pattern} {s t : Text} (ha : Accepts a s) (hb : Accepts b t) :
    Accepts (.seq a b) (s ++ t)
  | left {a b : Pattern} {t : Text} (h : Accepts a t) : Accepts (.alt a b) t
  | right {a b : Pattern} {t : Text} (h : Accepts b t) : Accepts (.alt a b) t
  | stop {a : Pattern} : Accepts (.many a) []
  | more {a : Pattern} {s t : Text} (ha : Accepts a s) (h : Accepts (.many a) t) :
    Accepts (.many a) (s ++ t)
  | keep {slot : Slot} {a : Pattern} {t : Text} (h : Accepts a t) : Accepts (.keep slot a) t

-- Whether a pattern can take nothing.
def nullable : Pattern → Bool
  | char _   => false
  | run n _  => n = 0
  | seq a b  => a.nullable && b.nullable
  | alt a b  => a.nullable || b.nullable
  | keep _ a => a.nullable
  | _        => true

-- The patterns whose texts are kept in a slot.
def keptIn (slot : Slot) : Pattern → List Pattern
  | seq a b  => a.keptIn slot ++ b.keptIn slot
  | alt a b  => a.keptIn slot ++ b.keptIn slot
  | many a   => a.keptIn slot
  | keep s a => (if s = slot then [a] else []) ++ a.keptIn slot
  | _        => []

variable {a b : Pattern} {p q m : Place} {slot : Slot} {part : Part}

theorem Accepts.nullable_of_nil {t : Text} (h : a.Accepts t) (ht : t = []) : a.nullable = true := by
  induction h
  case char         => cases ht
  case run hl _     => simpa [nullable, ht] using hl
  case seq ha hb    =>
    have ⟨hs, ht⟩ := List.append_eq_nil_iff.mp ht
    simp [nullable, ha hs, hb ht]
  case left h hi    => simp [nullable, hi ht]
  case right h hi   => simp [nullable, hi ht]
  case keep h hi    => exact hi ht
  all_goals rfl

theorem toText_append (s t : Text) : Part.toText ⟨s ++ t, t⟩ = s := by
  simp [Part.toText]

-- A part of what comes after a place is kept because the pattern of the slot accepts it.
def KeepsPart (a : Pattern) (p : Place) (slot : Slot) (part : Part) : Prop :=
  ∃ b ∈ a.keptIn slot, b.Accepts part.toText ∧ part.toText <:+: p.after

theorem KeepsPart.mono (h : KeepsPart a p slot part) (hk : a.keptIn slot ⊆ b.keptIn slot)
    (hs : p.after <:+ q.after) : KeepsPart b q slot part := by
  obtain ⟨d, hd, ha, ht⟩ := h
  exact ⟨d, hk hd, ha, ht.trans hs.isInfix⟩

-- A way of a pattern from one place to another.
structure Leads (a : Pattern) (p q : Place) : Prop where
  taken : ∃ t, a.Accepts t ∧ p.after = t ++ q.after
  kept  : ∀ slot part, (slot, part) ∈ q.kept → (slot, part) ∈ p.kept ∨ KeepsPart a p slot part

namespace Leads

theorem suffix (h : Leads a p q) : q.after <:+ p.after := by
  obtain ⟨t, _, ht⟩ := h.taken
  exact ⟨t, ht.symm⟩

theorem stay (h : a.Accepts []) (hq : q = p) : Leads a p q :=
  ⟨⟨[], h, hq ▸ rfl⟩, fun _ _ he => .inl (hq ▸ he)⟩

theorem stay_of_mem {c : Prop} [Decidable c] (ha : a.Accepts []) (h : q ∈ if c then [p] else []) :
    Leads a p q := by
  split at h
  case isTrue  => exact .stay ha (List.mem_singleton.mp h)
  case isFalse => cases h

theorem step {t : Text} (h : a.Accepts t) (ht : p.after = t ++ q.after) (hk : q.kept = p.kept) :
    Leads a p q :=
  ⟨⟨t, h, ht⟩, fun _ _ he => .inl (hk ▸ he)⟩

theorem mono (h : Leads a p q) (ha : ∀ t, a.Accepts t → b.Accepts t)
    (hk : ∀ slot, a.keptIn slot ⊆ b.keptIn slot) : Leads b p q where
  taken := by
    obtain ⟨t, ht, hp⟩ := h.taken
    exact ⟨t, ha t ht, hp⟩
  kept slot part he := (h.kept slot part he).imp_right (·.mono (hk slot) (List.suffix_refl _))

theorem seq (ha : Leads a p m) (hb : Leads b m q) : Leads (.seq a b) p q where
  taken := by
    obtain ⟨s, hs, hp⟩ := ha.taken
    obtain ⟨t, ht, hm⟩ := hb.taken
    exact ⟨s ++ t, .seq hs ht, by rw [hp, hm, List.append_assoc]⟩
  kept slot part he := by
    rcases hb.kept slot part he with he | hk
    case inr => exact .inr <| hk.mono (List.subset_append_right ..) ha.suffix
    case inl =>
      refine (ha.kept slot part he).imp_right fun hk => ?_
      exact hk.mono (List.subset_append_left ..) (List.suffix_refl _)

theorem more (ha : Leads a p m) (h : Leads (.many a) m q) : Leads (.many a) p q := by
  refine (ha.seq h).mono ?_ fun slot => by simp [keptIn]
  rintro _ (_ | _)
  case seq ha h => exact .more ha h

theorem keep (h : Leads a p q) (slot : Slot) : Leads (.keep slot a) p (q.keeping slot p) where
  taken := by
    obtain ⟨t, ht, hp⟩ := h.taken
    exact ⟨t, .keep ht, hp⟩
  kept s part he := by
    rcases List.mem_cons.mp he with he | he
    case inl =>
      obtain ⟨rfl, rfl⟩ := Prod.mk.inj he
      obtain ⟨t, ht, hp⟩ := h.taken
      have hk : Part.toText ⟨p.after, q.after⟩ = t := hp ▸ toText_append t q.after
      exact .inr ⟨a, by simp [keptIn], hk ▸ ht, hk ▸ ⟨[], q.after, hp.symm⟩⟩
    case inr =>
      refine (h.kept s part he).imp_right fun hk => ?_
      exact hk.mono (List.subset_append_right ..) (List.suffix_refl _)

end Leads

-- A way over characters of a class, at least that many of them.
def Runs (f : Char → Bool) (n : Nat) (p q : Place) : Prop :=
  ∃ t, n ≤ t.length ∧ (∀ c ∈ t, f c) ∧ p.after = t ++ q.after ∧ q.kept = p.kept

theorem Runs.cons {f : Char → Bool} {n : Nat} {c : Char} {t before before' : Text} {i j : Nat}
    {kept : List (Slot × Part)} (hc : f c) (h : Runs f (n - 1) ⟨i, before, t, kept⟩ q) :
    Runs f n ⟨j, before', c :: t, kept⟩ q := by
  obtain ⟨u, hn, hu, ht, hk⟩ := h
  refine ⟨c :: u, ?_, List.forall_mem_cons.mpr ⟨hc, hu⟩, congrArg (c :: ·) ht, hk⟩
  rw [List.length_cons]
  omega

theorem runs_of_mem_runPlaces {f : Char → Bool} {n : Nat} (h : q ∈ runPlaces f n p) :
    Runs f n p q := by
  have here {n : Nat} {p : Place} {acc : List Place} (h : q ∈ if n = 0 then p :: acc else acc) :
      q ∈ acc ∨ Runs f n p q := by
    split at h
    case isFalse   => exact .inl h
    case isTrue hn =>
      rcases List.mem_cons.mp h with rfl | h
      case inl => exact .inr ⟨[], by simp [hn], by simp, rfl, rfl⟩
      case inr => exact .inl h
  have go {kept : List (Slot × Part)} {n i : Nat} {acc : List Place} {before after : Text}
      (h : q ∈ runPlaces.go f kept n acc i before after) :
      q ∈ acc ∨ Runs f n ⟨i, before, after, kept⟩ q := by
    induction after generalizing n i acc before
    case nil         => exact here h
    case cons c t hi =>
      unfold runPlaces.go at h
      dsimp only at h
      split at h
      case isFalse   => exact here h
      case isTrue hc =>
        rcases hi h with h | h
        case inl => exact here h
        case inr => exact .inr (h.cons hc)
  exact (go h).resolve_left List.not_mem_nil

theorem leads_of_mem_manyPlaces {step : Place → List Place}
    (h : ∀ {p q}, q ∈ step p → Leads a p q) {fuel : Nat} (hq : q ∈ manyPlaces step fuel p) :
    Leads (.many a) p q := by
  induction fuel generalizing p
  case zero         => exact .stay .stop (List.mem_singleton.mp hq)
  case succ fuel hi =>
    rw [manyPlaces, List.mem_append, List.mem_flatMap] at hq
    rcases hq with ⟨m, hm, hq⟩ | hq
    case inr => exact .stay .stop (List.mem_singleton.mp hq)
    case inl =>
      split at hq
      case isTrue  => exact (h hm).more (hi hq)
      case isFalse => cases hq

-- What the ends of the matches say is right, whichever of them is preferred.
theorem leads_of_mem_ends (h : q ∈ a.ends p) : Leads a p q := by
  induction a generalizing p q
  case empty          => exact .stay .empty (List.mem_singleton.mp h)
  case start          => exact .stay_of_mem .start h
  case finish         => exact .stay_of_mem .finish h
  case boundary       => exact .stay_of_mem .boundary h
  case char f         =>
    obtain ⟨⟨c, m⟩, hn, rfl⟩ := Option.map_eq_some_iff.mp (Option.mem_toList.mp h)
    have ⟨hn, hf⟩ := Option.filter_eq_some_iff.mp hn
    unfold Place.next? at hn
    split at hn
    case h_1    => cases hn
    case h_2 ht =>
      cases hn
      exact .step (.char hf) ht rfl
  case run n f        =>
    obtain ⟨t, hl, ht, hp, hk⟩ := runs_of_mem_runPlaces h
    exact .step (.run hl ht) hp hk
  case shyRun f       =>
    obtain ⟨t, _, ht, hp, hk⟩ := runs_of_mem_runPlaces (List.mem_reverse.mp h)
    exact .step (.shyRun ht) hp hk
  case seq a b ha hb  =>
    obtain ⟨m, hm, hq⟩ := List.mem_flatMap.mp h
    exact (ha hm).seq (hb hq)
  case alt a b ha hb  =>
    rcases List.mem_append.mp h with h | h
    case inl => exact (ha h).mono (fun _ => .left) fun _ => List.subset_append_left ..
    case inr => exact (hb h).mono (fun _ => .right) fun _ => List.subset_append_right ..
  case many a ha      => exact leads_of_mem_manyPlaces ha h
  case keep slot a ha =>
    obtain ⟨q, hq, rfl⟩ := List.mem_map.mp h
    exact (ha hq).keep slot

-- A part that a match keeps stands in the text, and a pattern of its slot accepts it.
theorem kept_accepted {line t : Text} (h : a.match? line = some p) (hk : p.kept? slot = some t) :
    t <:+: line ∧ ∃ b ∈ a.keptIn slot, b.Accepts t := by
  have hl : Leads a (.ofText line) p := by
    rw [match?_eq] at h
    exact leads_of_mem_ends (List.mem_of_head? h)
  obtain ⟨⟨s, part⟩, hf, rfl⟩ := Option.map_eq_some_iff.mp hk
  obtain rfl : s = slot := by simpa using List.find?_some hf
  rcases hl.kept s part (List.mem_of_find?_eq_some hf) with he | ⟨b, hb, ha, ht⟩
  case inl => cases he
  case inr => exact ⟨ht, b, hb, ha⟩

end LogOrigin.Text.Pattern
