import LogOrigin.Proofs.Text.Trim
import LogOrigin.Text.Escape

-- Escape sequences as they are written, and what is left of a text when all of them have been
-- taken out of it.

namespace LogOrigin.Text

namespace Escape

-- What a system command ends with.
def IsTerminator (t : Text) : Prop :=
  t = [bell] ∨ t = [esc, '\\']

-- A system command, from its escape character to its terminator.
def IsCommand (t : Text) : Prop :=
  ∃ b z, (∀ c ∈ b, c ≠ bell ∧ c ≠ esc) ∧ IsTerminator z ∧ t = esc :: ']' :: (b ++ z)

-- The escape sequences that may stand before a rest of a text. The start of a system command is a
-- sequence of its own only if no terminator comes after it.
inductive IsSequence : (sequence rest : Text) → Prop
  | control {p i : Text} {f : Char} {r : Text} :
    (∀ c ∈ p, isParameter c = true) → (∀ c ∈ i, isIntermediate c = true) → isFinal f = true →
    IsSequence (esc :: '[' :: (p ++ (i ++ [f]))) r
  | command {e r : Text} : IsCommand e → IsSequence e r
  | short {c : Char} {r : Text} :
    isShort c = true → (∀ e, IsCommand e → ¬e <+: esc :: c :: r) → IsSequence [esc, c] r

-- Whether an escape sequence stands at the front of a text.
def Starts (t : Text) : Prop :=
  ∃ e r, t = e ++ r ∧ IsSequence e r

variable {c : Char} {a b e p i q r s t u z : Text} {n : Nat}

theorem toNat_of_isParameter (h : isParameter c = true) : 48 ≤ c.toNat ∧ c.toNat ≤ 63 := by
  simp only [isParameter, isAsciiDigit, Bool.or_eq_true, Bool.and_eq_true, decide_eq_true_eq,
    beq_iff_eq, Char.le_def, UInt32.le_iff_toNat_le] at h
  rcases h with (⟨h₁, h₂⟩ | rfl) | rfl
  case inl.inl => exact ⟨h₁, Nat.le_trans h₂ (by decide)⟩
  all_goals decide

theorem toNat_of_isIntermediate (h : isIntermediate c = true) : 32 ≤ c.toNat ∧ c.toNat ≤ 47 := by
  simpa [isIntermediate, Char.le_def, UInt32.le_iff_toNat_le] using h

theorem toNat_of_isFinal (h : isFinal c = true) : 64 ≤ c.toNat ∧ c.toNat ≤ 126 := by
  simpa [isFinal, Char.le_def, UInt32.le_iff_toNat_le] using h

theorem isParameter_eq_false (h : isIntermediate c = true ∨ isFinal c = true) :
    isParameter c = false := by
  refine Bool.eq_false_iff.mpr fun hp => ?_
  have hp := toNat_of_isParameter hp
  rcases h with h | h
  case inl =>
    have := toNat_of_isIntermediate h
    omega
  case inr =>
    have := toNat_of_isFinal h
    omega

theorem isIntermediate_eq_false (h : isFinal c = true) : isIntermediate c = false := by
  refine Bool.eq_false_iff.mpr fun hi => ?_
  have hi := toNat_of_isIntermediate hi
  have := toNat_of_isFinal h
  omega

-- Parameters and intermediate characters are found as they are written.
theorem span_control (hp : ∀ c ∈ p, isParameter c = true) (hi : ∀ c ∈ i, isIntermediate c = true)
    (hr : ∀ c ∈ r.head?, isIntermediate c = false ∧ (i = [] → isParameter c = false)) :
    ((p ++ (i ++ r)).takeWhile isParameter = p ∧
      (p ++ (i ++ r)).dropWhile isParameter = i ++ r) ∧
    ((i ++ r).takeWhile isIntermediate = i ∧ (i ++ r).dropWhile isIntermediate = r) := by
  refine ⟨span_run hp ?_, span_run hi fun c hc => (hr c hc).1⟩
  cases i
  case nil      => exact fun c hc => (hr c hc).2 rfl
  case cons d i =>
    rintro _ ⟨⟩
    exact isParameter_eq_false (.inl (hi d (List.mem_cons_self ..)))

theorem controlLength?_eq_some_iff : controlLength? t = some n ↔ ∃ p i f r,
    (∀ c ∈ p, isParameter c = true) ∧ (∀ c ∈ i, isIntermediate c = true) ∧ isFinal f = true ∧
      t = p ++ (i ++ f :: r) ∧ n = p.length + i.length + 1 := by
  constructor
  case mp  =>
    intro h
    simp only [controlLength?] at h
    split at h
    case h_1 f r hr =>
      obtain ⟨hf, rfl⟩ : isFinal f = true ∧ _ = n := by simpa using h
      refine ⟨_, _, f, r, List.all_eq_true.mp List.all_takeWhile,
        List.all_eq_true.mp List.all_takeWhile, hf, ?_, rfl⟩
      rw [← hr, List.takeWhile_append_dropWhile, List.takeWhile_append_dropWhile]
    case h_2 => cases h
  case mpr =>
    rintro ⟨p, i, f, r, hp, hi, hf, rfl, rfl⟩
    obtain ⟨⟨h₁, h₂⟩, h₃, h₄⟩ := span_control (r := f :: r) hp hi <| by
      rintro _ ⟨⟩
      exact ⟨isIntermediate_eq_false hf, fun _ => isParameter_eq_false (.inr hf)⟩
    simp [controlLength?, h₁, h₂, h₃, h₄, hf]

theorem commandLength?_eq_some_iff : commandLength? t = some n ↔ ∃ b z r,
    (∀ c ∈ b, c ≠ bell ∧ c ≠ esc) ∧ IsTerminator z ∧ t = b ++ (z ++ r) ∧
      n = b.length + z.length := by
  constructor
  case mp  =>
    intro h
    have hb : ∀ c ∈ t.takeWhile fun c => c != bell && c != esc, c ≠ bell ∧ c ≠ esc := by
      simpa using List.all_eq_true.mp (List.all_takeWhile (p := fun c => c != bell && c != esc))
    have ht := List.takeWhile_append_dropWhile (p := fun c => c != bell && c != esc) (l := t)
    have hd := List.head?_dropWhile_not (fun c => c != bell && c != esc) t
    simp only [commandLength?] at h
    split at h
    case h_1 c r hr =>
      rw [hr] at ht hd
      split at h
      case isTrue hc =>
        cases h
        exact ⟨_, [c], r, hb, .inl (hc ▸ rfl), ht.symm, rfl⟩
      case isFalse hc =>
        have he : c = esc := by simpa [hc] using hd
        split at h
        case isTrue hz  =>
          cases h
          obtain ⟨u, rfl⟩ := List.head?_eq_some_iff.mp hz
          exact ⟨_, [c, '\\'], u, hb, .inr (he ▸ rfl), ht.symm, rfl⟩
        case isFalse => cases h
    case h_2 => cases h
  case mpr =>
    rintro ⟨b, z, r, hb, hz, rfl, rfl⟩
    have hb' : ∀ c ∈ b, (c != bell && c != esc) = true := by simpa using hb
    have hc : esc ≠ bell := by decide
    rcases hz with rfl | rfl
    case inl =>
      obtain ⟨h₁, h₂⟩ := span_run (r := bell :: r) hb' (by simp)
      simp [commandLength?, h₁, h₂]
    case inr =>
      obtain ⟨h₁, h₂⟩ := span_run (r := esc :: '\\' :: r) hb' (by simp)
      simp [commandLength?, h₁, h₂, hc]

theorem exists_command_iff : (∃ e, IsCommand e ∧ e <+: esc :: ']' :: t) ↔
    ∃ n, commandLength? t = some n := by
  simp only [commandLength?_eq_some_iff]
  constructor
  case mp  =>
    rintro ⟨_, ⟨b, z, hb, hz, rfl⟩, r, hr⟩
    exact ⟨_, b, z, r, hb, hz, by simpa using hr.symm, rfl⟩
  case mpr =>
    rintro ⟨_, b, z, r, hb, hz, rfl, rfl⟩
    exact ⟨_, ⟨b, z, hb, hz, rfl⟩, r, by simp⟩

theorem length?_control (t : Text) : length? (esc :: '[' :: t) = (controlLength? t).map (· + 2) :=
  rfl

theorem length?_command (t : Text) :
    length? (esc :: ']' :: t) = some ((commandLength? t).getD 0 + 2) :=
  rfl

theorem length?_short (hb : c ≠ '[') (hc : c ≠ ']') (t : Text) :
    length? (esc :: c :: t) = if isShort c then some 2 else none := by
  simp [length?, hb, hc]

theorem exists_of_length? (h : length? t = some n) : ∃ c u, t = esc :: c :: u := by
  rcases t with _ | ⟨e, _ | ⟨c, u⟩⟩
  case nil       => cases h
  case cons.nil  => cases h
  case cons.cons =>
    by_cases he : e = esc
    case pos => exact ⟨c, u, he ▸ rfl⟩
    case neg => simp [length?, he] at h

theorem exists_sequence (h : length? t = some n) :
    ∃ e r, t = e ++ r ∧ IsSequence e r ∧ n = e.length := by
  obtain ⟨c, t, rfl⟩ := exists_of_length? h
  by_cases hb : c = '['
  case pos =>
    rw [hb, length?_control] at h
    obtain ⟨_, hn, rfl⟩ := Option.map_eq_some_iff.mp h
    obtain ⟨p, i, f, r, hp, hi, hf, rfl, rfl⟩ := controlLength?_eq_some_iff.mp hn
    exact ⟨_, r, by simp [hb], .control hp hi hf, by simp; omega⟩
  case neg =>
    by_cases hc : c = ']'
    case pos =>
      rw [hc, length?_command] at h
      rcases hn : commandLength? t with _ | m
      case none =>
        cases hn ▸ h
        refine ⟨[esc, ']'], t, by simp [hc], .short rfl fun e he hp => ?_, rfl⟩
        obtain ⟨_, hn'⟩ := exists_command_iff.mp ⟨e, he, hp⟩
        cases hn.symm.trans hn'
      case some =>
        cases hn ▸ h
        obtain ⟨b, z, r, hb, hz, rfl, rfl⟩ := commandLength?_eq_some_iff.mp hn
        exact ⟨_, r, by simp [hc], .command ⟨b, z, hb, hz, rfl⟩, by simp⟩
    case neg =>
      rw [length?_short hb hc] at h
      obtain ⟨hs, hn⟩ := Option.ite_none_right_eq_some.mp h
      cases hn
      refine ⟨[esc, c], t, rfl, .short hs ?_, rfl⟩
      rintro _ ⟨b, z, _, _, rfl⟩ hp
      have hp : ']' = c ∧ b ++ z <+: t := by simpa [List.cons_prefix_cons] using hp
      exact hc hp.1.symm

theorem IsSequence.length?_eq (h : IsSequence e r) : length? (e ++ r) = some e.length := by
  cases h
  case control p i f hp hi hf =>
    have := controlLength?_eq_some_iff.mpr ⟨p, i, f, r, hp, hi, hf, rfl, rfl⟩
    simp [length?_control, this]
    omega
  case command he =>
    obtain ⟨b, z, hb, hz, rfl⟩ := he
    have := commandLength?_eq_some_iff.mpr ⟨b, z, r, hb, hz, rfl, rfl⟩
    simp [length?_command, this]
  case short c hc hn =>
    have hb : c ≠ '[' := by
      rintro rfl
      cases hc
    by_cases hc' : c = ']'
    case neg => exact (length?_short hb hc' r).trans (if_pos hc)
    case pos =>
      subst hc'
      have : commandLength? r = none := by
        refine Option.eq_none_iff_forall_ne_some.mpr fun n h => ?_
        obtain ⟨e, he, hp⟩ := exists_command_iff.mpr ⟨n, h⟩
        exact hn e he hp
      simp [length?_command, this]

-- The length of a sequence is found exactly where one stands.
theorem length?_eq_some_iff :
    length? t = some n ↔ ∃ e r, t = e ++ r ∧ IsSequence e r ∧ n = e.length where
  mp    := exists_sequence
  mpr h := by
    obtain ⟨e, r, rfl, he, rfl⟩ := h
    exact he.length?_eq

theorem starts_iff : Starts t ↔ ∃ n, length? t = some n := by
  simp only [length?_eq_some_iff]
  constructor
  case mp  => exact fun ⟨e, r, ht, he⟩ => ⟨_, e, r, ht, he, rfl⟩
  case mpr => exact fun ⟨_, e, r, ht, he, _⟩ => ⟨e, r, ht, he⟩

theorem IsSequence.head (h : IsSequence e r) : ∃ c t, e = esc :: c :: t := by
  cases h
  case control    => exact ⟨_, _, rfl⟩
  case command he =>
    obtain ⟨b, z, _, _, rfl⟩ := he
    exact ⟨_, _, rfl⟩
  case short      => exact ⟨_, _, rfl⟩

theorem Starts.head (h : Starts t) : ∃ c u, t = esc :: c :: u := by
  obtain ⟨e, r, rfl, he⟩ := h
  obtain ⟨c, u, rfl⟩ := he.head
  exact ⟨c, u ++ r, rfl⟩

theorem IsTerminator.inside (hz : IsTerminator z) (hb : esc ∉ b)
    (he : b ++ z = a ++ esc :: t) : t = ['\\'] := by
  have hn := congrArg (List.count esc) he
  rw [List.count_append, List.count_eq_zero.mpr hb, List.count_append, List.count_cons_self] at hn
  rcases hz with rfl | rfl
  case inl =>
    have : [bell].count esc = 0 := by decide
    omega
  case inr =>
    have : [esc, '\\'].count esc = 1 := by decide
    have ha : esc ∉ a := List.count_eq_zero.mp (by omega)
    have hp : ∀ u : Text, esc ∉ u → ∀ c ∈ u, (c != esc) = true := by
      intro u hu c hc
      simpa using fun he : c = esc => hu (he ▸ hc)
    exact (List.cons.inj (run_inj (hp b hb) (hp a ha) (by simp) (by simp) he).2).2.symm

-- An escape character inside of a sequence belongs to its terminator.
theorem IsSequence.inside (h : IsSequence e r) (ha : a ≠ []) (he : e = a ++ esc :: t) :
    t = ['\\'] := by
  obtain ⟨_, a, rfl⟩ := List.exists_cons_of_ne_nil ha
  rw [List.cons_append] at he
  cases h
  case control p i f hp hi hf =>
    have hm : esc ∈ '[' :: (p ++ (i ++ [f])) := by simp [(List.cons.inj he).2]
    have hn : esc ∉ p ∧ esc ∉ i ∧ esc ≠ f :=
      ⟨fun h => absurd (hp _ h) (by decide), fun h => absurd (hi _ h) (by decide), by
        rintro rfl
        cases hf⟩
    simp [hn, (by decide : esc ≠ '[')] at hm
  case command he' =>
    obtain ⟨b, z, hb, hz, rfl⟩ := he'
    have hn : esc ∉ ']' :: b :=
      List.not_mem_cons_of_ne_of_not_mem (by decide) fun h => (hb _ h).2 rfl
    exact hz.inside hn (List.cons.inj he).2
  case short hc _ =>
    obtain ⟨-, he⟩ := List.cons.inj he
    cases a
    case nil      =>
      obtain ⟨rfl, _⟩ := List.cons.inj he
      cases hc
    case cons d a => simp at he

-- An escape character that no backslash follows ends every sequence before it.
def Breaks (t : Text) : Prop :=
  ∃ u, t = esc :: u ∧ u.head? ≠ some '\\'

theorem IsSequence.prefix_of_breaks (h : IsSequence e s) (ha : a ≠ []) (hu : Breaks u)
    (he : a ++ u = e ++ s) : e <+: a := by
  obtain ⟨u, rfl, hb⟩ := hu
  rcases List.append_eq_append_iff.mp he with ⟨b, rfl, hb'⟩ | ⟨b, rfl, _⟩
  case inl =>
    cases b
    case nil      => simp
    case cons c b =>
      obtain ⟨rfl, rfl⟩ := List.cons.inj hb'
      obtain rfl := h.inside ha rfl
      simp at hb
  case inr => exact List.prefix_append ..

theorem IsSequence.append (h : IsSequence e r) (hu : Breaks u) : IsSequence e (r ++ u) := by
  cases h
  case control hp hi hf => exact .control hp hi hf
  case command he       => exact .command he
  case short c hc hn    =>
    refine .short hc fun e he ⟨s, hs⟩ => hn e he ?_
    exact (IsSequence.command he).prefix_of_breaks (a := esc :: c :: r) nofun hu hs.symm

theorem Starts.of_append (h : Starts (a ++ u)) (ha : a ≠ []) (hu : Breaks u) : Starts a := by
  obtain ⟨e, s, he, hs⟩ := h
  obtain ⟨r, rfl⟩ := hs.prefix_of_breaks ha hu he
  refine ⟨e, r, rfl, ?_⟩
  obtain rfl : r ++ u = s := by simpa using he
  cases hs
  case control hp hi hf => exact .control hp hi hf
  case command he       => exact .command he
  case short hc hn      =>
    exact .short hc fun e he hp => hn e he (hp.trans ⟨u, by simp⟩)

-- No sequence starts inside of a piece of a text that a rest comes after.
def Plain (p r : Text) : Prop :=
  ∀ a b, p = a ++ b → b ≠ [] → ¬Starts (b ++ r)

-- A text that is cut at its sequences: each of them with the piece before it, and the last piece.
inductive Cuts : Text → List (Text × Text) → Text → Prop
  | last {p : Text} : Plain p [] → Cuts p [] p
  | cut {p e t : Text} {l : List (Text × Text)} {q : Text} :
    Plain p (e ++ t) → IsSequence e t → Cuts t l q → Cuts (p ++ (e ++ t)) ((p, e) :: l) q

-- A control sequence up to a place where it breaks off.
structure Incomplete (p i r : Text) : Prop where
  parameters    : ∀ c ∈ p, isParameter c = true
  intermediates : ∀ c ∈ i, isIntermediate c = true
  ends          : ∀ c ∈ r.head?,
    isFinal c = false ∧ isIntermediate c = false ∧ (i = [] → isParameter c = false)

variable {l : List (Text × Text)}

theorem Plain.nil : Plain [] r := by
  rintro a b h hb
  simp_all

theorem Plain.cons (hc : ¬Starts (c :: (p ++ r))) (hp : Plain p r) : Plain (c :: p) r := by
  intro a b h hb
  cases a
  case nil      =>
    obtain rfl : b = c :: p := h.symm
    exact hc
  case cons d a => exact hp a b (List.cons.inj h).2 hb

theorem Plain.head (h : Plain (c :: p) r) : ¬Starts (c :: (p ++ r)) :=
  h [] (c :: p) rfl nofun

theorem Plain.tail (h : Plain (c :: p) r) : Plain p r :=
  fun a b hp hb => h (c :: a) b (by simp [hp]) hb

theorem Plain.of_notMem (h : esc ∉ p) : Plain p r := by
  rintro a b rfl hb hs
  obtain ⟨d, b, rfl⟩ := List.exists_cons_of_ne_nil hb
  obtain ⟨_, _, hd⟩ := hs.head
  obtain ⟨rfl, _⟩ := List.cons.inj hd
  simp at h

theorem Cuts.text (h : Cuts t l q) : t = l.flatMap (fun x => x.1 ++ x.2) ++ q := by
  induction h
  case last       => rfl
  case cut _ _ hi => simp [← hi]

-- The pieces are in their order in the text.
theorem Cuts.sublist (h : Cuts t l q) : (l.flatMap Prod.fst ++ q).Sublist t := by
  induction h
  case last         => exact .refl _
  case cut p e t _ _ _ _ _ hi =>
    simpa using (hi.trans (List.sublist_append_right e t)).append_left p

theorem Cuts.cons (h : Cuts t l q) (hc : ¬Starts (c :: t)) : ∃ l q, Cuts (c :: t) l q := by
  cases h
  case last hp        => exact ⟨_, _, .last (hp.cons (by simpa using hc))⟩
  case cut hp he h    => exact ⟨_, _, .cut (hp.cons hc) he h⟩

theorem exists_cuts (t : Text) : ∃ l q, Cuts t l q := by
  induction h : t.length using Nat.strongRecOn generalizing t
  case ind n hi =>
    rcases t with _ | ⟨c, u⟩
    case nil  => exact ⟨[], [], .last .nil⟩
    case cons =>
      by_cases hs : Starts (c :: u)
      case pos =>
        obtain ⟨e, r, he, hs⟩ := hs
        obtain ⟨l, q, hc⟩ := hi r.length (by obtain ⟨_, _, rfl⟩ := hs.head; grind) r rfl
        exact ⟨([], e) :: l, q, he ▸ Cuts.cut .nil hs hc⟩
      case neg =>
        obtain ⟨l, q, hc⟩ := hi u.length (by grind) u rfl
        exact hc.cons hs

theorem Incomplete.not_starts (h : Incomplete p i r) :
    ¬Starts (esc :: '[' :: (p ++ (i ++ r))) := by
  rw [starts_iff]
  rintro ⟨n, hn⟩
  obtain ⟨⟨-, h₂⟩, -, h₄⟩ := span_control (r := r) h.parameters h.intermediates
    fun c hc => (h.ends c hc).2
  have hc : controlLength? (p ++ (i ++ r)) = none := by
    simp only [controlLength?, h₂, h₄]
    cases r
    case nil      => rfl
    case cons c r => simp [(h.ends c rfl).1]
  simp [length?, hc] at hn

theorem not_starts_lone (h : ∀ c ∈ r.head?, c ≠ '[' ∧ isShort c = false) : ¬Starts (esc :: r) := by
  rw [starts_iff]
  rintro ⟨n, hn⟩
  cases r
  case nil      => cases hn
  case cons c r =>
    obtain ⟨hb, hs⟩ := h c rfl
    have hc : c ≠ ']' := by
      rintro rfl
      cases hs
    simp [length?, hb, hc, hs] at hn

end Escape

open Escape

variable {f : Text → Option Nat} {w a e p q r t u : Text} {c : Char} {l : List (Text × Text)}

-- Where matches do not depend on what is before them, what is left of a match is passed over.
theorem replaceAll_go (b d : Option Char) (n : Nat) (t : Text) :
    replaceAll.go (fun _ t => f t) w b n t = replaceAll.go (fun _ t => f t) w d 0 (t.drop n) := by
  induction t generalizing b n
  case nil         => simp [replaceAll.go]
  case cons c t hi =>
    cases n
    case zero   => rfl
    case succ n => exact hi (some c) n

@[simp]
theorem stripEscapes_nil : stripEscapes [] = [] :=
  rfl

theorem stripEscapes_cons (h : ¬Starts (c :: t)) : stripEscapes (c :: t) = c :: stripEscapes t := by
  have hn : length? (c :: t) = none := by
    simpa [starts_iff, Option.eq_none_iff_forall_ne_some] using h
  rw [stripEscapes, replaceAll, replaceAll.go, hn]
  exact congrArg _ (replaceAll_go ..)

theorem stripEscapes_sequence (h : IsSequence e r) : stripEscapes (e ++ r) = stripEscapes r := by
  obtain ⟨c, t, rfl⟩ := h.head
  have hn := length?_eq_some_iff.mpr ⟨_, r, rfl, h, rfl⟩
  rw [List.cons_append] at hn ⊢
  rw [stripEscapes, replaceAll, replaceAll.go, hn]
  simp [replaceAll_go _ none, stripEscapes, replaceAll]

theorem stripEscapes_plain (h : Plain p r) : stripEscapes (p ++ r) = p ++ stripEscapes r := by
  induction p
  case nil         => rfl
  case cons c p hi => rw [List.cons_append, stripEscapes_cons h.head, hi h.tail, List.cons_append]

theorem stripEscapes_eq (h : esc ∉ t) : stripEscapes t = t := by
  simpa using stripEscapes_plain (.of_notMem (r := []) h)

theorem Escape.Cuts.stripEscapes (h : Cuts t l q) : stripEscapes t = l.flatMap Prod.fst ++ q := by
  induction h
  case last hp         => simpa using stripEscapes_plain hp
  case cut hp he _ hi  => simp [stripEscapes_plain hp, stripEscapes_sequence he, hi]

theorem stripEscapes_append (a : Text) (hu : Breaks u) :
    stripEscapes (a ++ u) = stripEscapes a ++ stripEscapes u := by
  induction h : a.length using Nat.strongRecOn generalizing a
  case ind n hi =>
    rcases a with _ | ⟨c, a⟩
    case nil  => rfl
    case cons =>
      by_cases hs : Starts (c :: a)
      case pos =>
        obtain ⟨e, r, he, hs⟩ := hs
        have hr := hi r.length (by obtain ⟨_, _, rfl⟩ := hs.head; grind) r rfl
        rw [he, List.append_assoc, stripEscapes_sequence (hs.append hu), stripEscapes_sequence hs, hr]
      case neg =>
        have ha := hi a.length (by grind) a rfl
        have hn : ¬Starts (c :: (a ++ u)) := fun h => hs <| h.of_append (a := c :: a) nofun hu
        rw [List.cons_append, stripEscapes_cons hn, stripEscapes_cons hs, ha, List.cons_append]

-- A text is made of pieces with escape sequences between them such that no other sequence starts in
-- a piece, and the pieces are what is left of it. So nothing else is taken out or put in.
theorem stripEscapes_removes (t : Text) :
    (∃ l q, Cuts t l q) ∧
    (∀ l q, Cuts t l q → t = l.flatMap (fun x => x.1 ++ x.2) ++ q ∧
      stripEscapes t = l.flatMap Prod.fst ++ q) ∧
    (stripEscapes t).Sublist t ∧
    (esc ∉ t → stripEscapes t = t) ∧
    (∀ a p i r, Incomplete p i r → t = a ++ esc :: '[' :: (p ++ (i ++ r)) →
      stripEscapes t = stripEscapes a ++ esc :: '[' :: (p ++ (i ++ stripEscapes r))) ∧
    (∀ a r, (∀ c ∈ r.head?, c ≠ '[' ∧ isShort c = false) → t = a ++ esc :: r →
      stripEscapes t = stripEscapes a ++ esc :: stripEscapes r) := by
  have ⟨l, q, hc⟩ := exists_cuts t
  refine ⟨⟨l, q, hc⟩, fun _ _ hc => ⟨hc.text, hc.stripEscapes⟩, ?sublist, stripEscapes_eq, ?control,
    ?lone⟩
  case sublist => exact hc.stripEscapes ▸ hc.sublist
  case control =>
    rintro a p i r h rfl
    have hp : Plain ('[' :: (p ++ i)) r := .of_notMem fun he => by
      rcases List.mem_cons.mp he with he | he
      case inl => exact absurd he (by decide)
      case inr =>
        rcases List.mem_append.mp he with he | he
        case inl => exact absurd (h.parameters _ he) (by decide)
        case inr => exact absurd (h.intermediates _ he) (by decide)
    rw [stripEscapes_append a ⟨_, rfl, by simp⟩, stripEscapes_cons h.not_starts]
    simpa using stripEscapes_plain hp
  case lone    =>
    rintro a r h rfl
    have hb : r.head? ≠ some '\\' := fun hr => absurd (h _ hr).2 (by decide)
    rw [stripEscapes_append a ⟨_, rfl, hb⟩, stripEscapes_cons (not_starts_lone h)]

-- A control sequence that another one breaks off, a system command with a terminator, one without
-- it and an escape character at the end.
theorem stripEscapes_removes_mixed :
    let r := "\x1b[0mb\x1b]8;u\x07c\x1b]d".toList
    Incomplete ['3'] [] (r ++ [esc]) ∧
      stripEscapes ('a' :: esc :: '[' :: '3' :: (r ++ [esc])) =
        stripEscapes ['a'] ++ esc :: '[' :: (['3'] ++ ([] ++ stripEscapes (r ++ [esc]))) ∧
      stripEscapes (r ++ [esc]) = stripEscapes r ++ esc :: stripEscapes [] ∧
      stripEscapes ['a'] = ['a'] ∧ stripEscapes r = ['b', 'c', 'd'] := by
  intro r
  have hi : Incomplete ['3'] [] (r ++ [esc]) :=
    ⟨List.forall_mem_singleton.mpr rfl, nofun, by rintro _ ⟨⟩; decide⟩
  have ⟨_, _, _, _, control, _⟩ := stripEscapes_removes ('a' :: esc :: '[' :: '3' :: (r ++ [esc]))
  have ⟨_, _, _, _, _, lone⟩ := stripEscapes_removes (r ++ [esc])
  have ⟨_, _, _, plain, _⟩ := stripEscapes_removes ['a']
  exact ⟨hi, control ['a'] ['3'] [] _ hi rfl, lone r [] nofun rfl, plain (by decide), by decide⟩

end LogOrigin.Text
