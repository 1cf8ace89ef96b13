import LogOrigin.Proofs.Files.Path
import LogOrigin.Proofs.Text.Synchrony
import LogOrigin.Search.FileName

-- What the globs for file names match: they are read as they are meant, whatever plain text they
-- are made with, and they look at the last name of a path only.

namespace LogOrigin

namespace Glob

section Matching

variable {p : UInt8 → Bool} {rest : List UInt8 → Bool} {l : List Atom} {b w : List UInt8}

theorem matchMany_iff : matchMany p rest b = true ↔
    ∃ u v, b = u ++ v ∧ (∀ x ∈ u, p x = true) ∧ rest v = true := by
  induction b
  case nil         => simp [matchMany]
  case cons x b hi =>
    rw [matchMany, Bool.or_eq_true, Bool.and_eq_true, hi]
    constructor
    case mp  =>
      rintro (h | ⟨hx, u, v, rfl, hu, hv⟩)
      case inl => exact ⟨[], x :: b, rfl, nofun, h⟩
      case inr => exact ⟨x :: u, v, rfl, List.forall_mem_cons.mpr ⟨hx, hu⟩, hv⟩
    case mpr =>
      rintro ⟨_ | ⟨y, u⟩, v, hb, hu, hv⟩
      case nil  => exact .inl <| by rwa [hb]
      case cons =>
        obtain ⟨rfl, rfl⟩ := List.cons.inj hb
        obtain ⟨hy, hu⟩ := List.forall_mem_cons.mp hu
        exact .inr ⟨hy, u, v, rfl, hu, hv⟩

theorem matchAtoms_one : matchAtoms (.one p :: l) b = true ↔
    ∃ x r, b = x :: r ∧ p x = true ∧ matchAtoms l r = true := by
  cases b <;> simp [matchAtoms]

theorem matchAtoms_many : matchAtoms (.many p :: l) b = true ↔
    ∃ u v, b = u ++ v ∧ (∀ x ∈ u, p x = true) ∧ matchAtoms l v = true := by
  rw [matchAtoms]
  exact matchMany_iff

theorem matchAtoms_nil : matchAtoms [] b = true ↔ b = [] := by
  simp [matchAtoms]

-- The atoms of a plain text whose case does not matter.
def literals (w : List UInt8) : List Atom :=
  w.map fun b => .one fun x => folded true x == folded true b

theorem matchAtoms_literals : matchAtoms (literals w ++ l) b = true ↔
    ∃ u v, b = u ++ v ∧ u.map lowerByte = w.map lowerByte ∧ matchAtoms l v = true := by
  induction w generalizing b
  case nil         => simp [literals]
  case cons x w hi =>
    rw [literals, List.map_cons, List.cons_append, matchAtoms_one]
    constructor
    case mp  =>
      rintro ⟨y, r, rfl, hy, hr⟩
      obtain ⟨u, v, rfl, hu, hv⟩ := hi.mp hr
      exact ⟨y :: u, v, rfl, by simpa [folded, hu] using hy, hv⟩
    case mpr =>
      rintro ⟨_ | ⟨y, u⟩, v, rfl, hu, hv⟩
      case nil  => cases hu
      case cons =>
        obtain ⟨hy, hu⟩ := List.cons.inj hu
        exact ⟨y, u ++ v, rfl, by simpa [folded] using hy, hi.mpr ⟨u, v, rfl, hu, hv⟩⟩

theorem notSlash_iff {x : UInt8} : notSlash x = true ↔ x ≠ slash := by
  simp [notSlash]

-- A name of a path ends where no slash follows.
theorem matchAtoms_run : matchAtoms [.many notSlash] b = true ↔ slash ∉ b := by
  rw [matchAtoms_many]
  constructor
  case mp  =>
    rintro ⟨u, v, rfl, hu, hv⟩
    rw [matchAtoms_nil.mp hv, List.append_nil]
    exact fun hm => notSlash_iff.mp (hu slash hm) rfl
  case mpr =>
    refine fun h => ⟨b, [], (List.append_nil b).symm, fun x hx => notSlash_iff.mpr ?_, rfl⟩
    exact fun he => h (he ▸ hx)

end Matching

section Reading

variable {d : Draft} {brackets anyCase : Bool} {before : Option Char} {c : Char} {s t : Text}
variable {parts : List Part}

-- A character that stands for itself in a glob.
def IsPlain (c : Char) : Prop :=
  c ∉ "*?\\[\x7b\x7d,".toList

theorem go_plain (h : IsPlain c) :
    read?.go d brackets before (c :: t) = read?.go (d.push (.literal c)) brackets (some c) t := by
  simp only [IsPlain, String.reduceToList, List.mem_cons, not_or] at h
  rw [read?.go.eq_def]
  split
  case h_1 he => cases he
  case h_2 he => exact absurd (List.cons.inj he).1 h.1
  case h_3 he => exact absurd (List.cons.inj he).1 h.2.2.1
  case h_4 he =>
    obtain ⟨rfl, rfl⟩ := List.cons.inj he
    simp [h]

theorem go_run (h : t.head? ≠ some '*') :
    read?.go d brackets before ('*' :: t) = read?.go (d.push .run) brackets (some '*') t := by
  rw [read?.go.eq_def]
  split
  case h_1 he => cases he
  case h_2 he => exact absurd (by rw [(List.cons.inj he).2, List.head?_cons]) h
  case h_3 he => cases (List.cons.inj he).1
  case h_4 he =>
    obtain ⟨rfl, rfl⟩ := List.cons.inj he
    rfl

theorem go_text (d : Draft) (brackets : Bool) (before : Option Char) (h : ∀ c ∈ s, IsPlain c)
    (t : Text) : ∃ before',
    read?.go d brackets before (s ++ t) =
      read?.go ⟨(s.map Part.literal).reverse ++ d.current, d.groups⟩ brackets before' t := by
  induction s generalizing d before
  case nil         => exact ⟨before, rfl⟩
  case cons c s hi =>
    obtain ⟨hc, hs⟩ := List.forall_mem_cons.mp h
    obtain ⟨before', hi⟩ := hi (d.push (.literal c)) (some c) hs
    refine ⟨before', ?_⟩
    rw [List.cons_append, go_plain hc, hi]
    simp [Draft.push]

theorem read?_leading : read? ("**/".toList ++ t) = read?.go ⟨[.leading], []⟩ true (some '/') t := by
  have ht : "**/".toList ++ t = '*' :: '*' :: '/' :: t := rfl
  rw [read?, ht, read?.go.eq_def]
  rfl

theorem go_nil : read?.go d brackets before [] = d.parts? := by
  rw [read?.go.eq_def]

-- The parts of a plain text with a star behind it.
theorem go_text_run (h : ∀ c ∈ s, IsPlain c) (hd : d.groups = []) :
    read?.go d brackets before (s ++ ['*']) =
      some (d.current.reverse ++ s.map Part.literal ++ [.run]) := by
  obtain ⟨before', hs⟩ := go_text d brackets before h ['*']
  rw [hs, go_run (t := []) (Option.some_ne_none '*').symm, go_nil]
  simp [Draft.parts?, Draft.push, hd]

theorem ofText?_of_read (h : read? t = some (.leading :: parts)) (hp : parts ≠ []) :
    ofText? anyCase t = some ⟨expandAll anyCase (.leading :: parts)⟩ := by
  rw [ofText?, h]
  cases parts
  case nil  => exact absurd rfl hp
  case cons => rfl

theorem isPlain_dot : IsPlain '.' := by
  unfold IsPlain
  decide

theorem ofText?_named (h : ∀ c ∈ s, IsPlain c) : ofText? anyCase (FileName.namedPattern s) =
    some ⟨expandAll anyCase (.leading :: ((s ++ ['.']).map .literal ++ [.run]))⟩ := by
  have hs : ∀ c ∈ s ++ ['.'], IsPlain c := by
    intro c hc
    rcases List.mem_append.mp hc with hc | hc
    case inl => exact h c hc
    case inr => exact List.mem_singleton.mp hc ▸ isPlain_dot
  have ht : FileName.namedPattern s = "**/".toList ++ (s ++ ['.'] ++ ['*']) := by
    simp [FileName.namedPattern]
  refine ofText?_of_read ?_ (List.append_ne_nil_of_right_ne_nil _ (List.cons_ne_nil _ _))
  rw [ht, read?_leading, go_text_run hs rfl]
  rfl

theorem ofText?_mention (h : ∀ c ∈ s, IsPlain c) (hs : s ≠ []) :
    ofText? anyCase (FileName.mentionPattern s) =
      some ⟨expandAll anyCase (.leading :: .run :: (s.map .literal ++ [.run]))⟩ := by
  have ht : FileName.mentionPattern s = "**/".toList ++ ('*' :: (s ++ ['*'])) := by
    simp [FileName.mentionPattern]
  have hn : (s ++ ['*']).head? ≠ some '*' := by
    cases s
    case nil    => exact absurd rfl hs
    case cons c s =>
      have hc := h c (List.mem_cons_self ..)
      rintro ⟨⟩
      exact hc (by decide)
  refine ofText?_of_read ?_ (List.cons_ne_nil _ _)
  rw [ht, read?_leading, go_run hn, go_text_run h rfl]
  rfl

end Reading

section Testing

theorem tail_bytes {n t : Text} (h : Text.IsTail '/' n t) :
    Text.IsTail slash (Text.bytes n) (Text.bytes t) := by
  cases h
  case whole    => exact .whole
  case behind f => exact Text.bytes_append f _ ▸ .behind (Text.bytes f)

variable {row : List Atom} {b w : List UInt8} {s t name : Text} {parts : List Part}

-- Behind any directories, what matches no slash is matched with the last name only.
theorem match_leading (hrow : ∀ b, matchAtoms row b = true → slash ∉ b) (h : Text.IsTail slash w b)
    (hw : slash ∉ w) : matchAtoms row b = true ∨
      matchAtoms (.many anything :: .one isSlash :: row) b = true ↔ matchAtoms row w = true := by
  have hl : matchAtoms (.many anything :: .one isSlash :: row) b = true ↔
      ∃ u v, b = u ++ slash :: v ∧ matchAtoms row v = true := by
    rw [matchAtoms_many]
    constructor
    case mp  =>
      rintro ⟨u, v, rfl, _, hv⟩
      obtain ⟨x, v, rfl, hx, hv⟩ := matchAtoms_one.mp hv
      obtain rfl : x = slash := eq_of_beq hx
      exact ⟨u, v, rfl, hv⟩
    case mpr =>
      rintro ⟨u, v, rfl, hv⟩
      exact ⟨u, slash :: v, rfl, fun _ _ => rfl, matchAtoms_one.mpr ⟨slash, v, rfl, rfl, hv⟩⟩
  rw [hl]
  constructor
  case mp  =>
    rintro (hb | ⟨u, v, rfl, hv⟩)
    case inl => exact h.eq_of_notMem (hrow b hb) ▸ hb
    case inr => exact h.eq_of_append hw (hrow v hv) ▸ hv
  case mpr =>
    intro hm
    cases h
    case whole    => exact .inl hm
    case behind f => exact .inr ⟨f, w, rfl, hm⟩

theorem expandAll_literals : expandAll true (s.map .literal ++ parts) =
    (expandAll true parts).map (literals (Text.bytes s) ++ ·) := by
  induction s
  case nil         => simp [literals, Text.bytes]
  case cons c s hi =>
    rw [List.map_cons, List.cons_append, expandAll, hi, Part.expand]
    simp [literals, Text.bytes_cons, folded]

theorem bytes_eq (t : Text) : bytes t = Text.bytes t :=
  rfl

theorem test_leading (h : expandAll true parts = [row]) :
    Glob.test ⟨expandAll true (.leading :: parts)⟩ t = true ↔ matchAtoms row (Text.bytes t) = true ∨
      matchAtoms (.many anything :: .one isSlash :: row) (Text.bytes t) = true := by
  simp [Glob.test, bytes_eq, expandAll, Part.expand, h]

theorem lowerByte_slash {x : UInt8} (h : lowerByte x = slash) : x = slash := by
  unfold lowerByte at h
  split at h
  case isFalse   => exact h
  case isTrue hx =>
    have hx := Text.lowerByte_iff.mp hx
    have hl : x.toNat + (32 : UInt8).toNat < 2 ^ 8 := by
      change x.toNat + 32 < 256
      omega
    have hs := congrArg UInt8.toNat h
    rw [UInt8.toNat_add, Nat.mod_eq_of_lt hl] at hs
    change x.toNat + 32 = 47 at hs
    omega

-- What equals a text without a slash but for its case has none itself.
theorem slash_notMem {u : List UInt8} (hu : u.map lowerByte = (Text.bytes s).map lowerByte)
    (hs : '/' ∉ s) : slash ∉ u := by
  intro hm
  have hl : slash ∈ (Text.bytes s).map lowerByte := hu ▸ List.mem_map.mpr ⟨slash, hm, rfl⟩
  obtain ⟨x, hx, he⟩ := List.mem_map.mp hl
  exact hs <| Text.slash_mem_bytes_iff.mp <| lowerByte_slash he ▸ hx

-- The atoms of names that start with a text.
def starting (s : Text) : List Atom :=
  literals (Text.bytes s) ++ [.many notSlash]

-- The atoms of names that have a text in them.
def having (s : Text) : List Atom :=
  .many notSlash :: starting s

theorem expandAll_starting : expandAll true (s.map .literal ++ [.run]) = [starting s] := by
  rw [expandAll_literals]
  rfl

theorem expandAll_having : expandAll true (.run :: (s.map .literal ++ [.run])) = [having s] := by
  rw [expandAll, expandAll_starting]
  rfl

theorem slash_notMem_starting (hs : '/' ∉ s) (h : matchAtoms (starting s) b = true) :
    slash ∉ b := by
  obtain ⟨u, v, rfl, hu, hv⟩ := matchAtoms_literals.mp h
  exact List.not_mem_append (slash_notMem hu hs) (matchAtoms_run.mp hv)

theorem slash_notMem_having (hs : '/' ∉ s) (h : matchAtoms (having s) b = true) : slash ∉ b := by
  obtain ⟨u, v, rfl, hu, hv⟩ := matchAtoms_many.mp h
  refine List.not_mem_append (fun hm => ?_) (slash_notMem_starting hs hv)
  exact notSlash_iff.mp (hu slash hm) rfl

theorem match_starting (hn : '/' ∉ name) : matchAtoms (starting s) (Text.bytes name) = true ↔
    s.map Text.asciiLower <+: name.map Text.asciiLower := by
  have hw : slash ∉ Text.bytes name := mt Text.slash_mem_bytes_iff.mp hn
  rw [starting, matchAtoms_literals]
  constructor
  case mp  =>
    rintro ⟨u, v, hb, hu, _⟩
    refine Text.prefix_of_bytes ⟨v.map lowerByte, ?_⟩
    rw [Text.bytes_map_asciiLower, Text.bytes_map_asciiLower, ← hu, ← List.map_append, ← hb]
  case mpr =>
    rintro ⟨r, hr⟩
    have hb := congrArg Text.bytes hr
    rw [Text.bytes_append, Text.bytes_map_asciiLower, Text.bytes_map_asciiLower] at hb
    obtain ⟨u, v, hb, hu, _⟩ := List.map_eq_append_iff.mp hb.symm
    refine ⟨u, v, hb, hu, matchAtoms_run.mpr fun hm => hw ?_⟩
    exact hb ▸ List.mem_append_right u hm

theorem match_having (hn : '/' ∉ name) (hs : s ≠ []) :
    matchAtoms (having s) (Text.bytes name) = true ↔
      s.map Text.asciiLower <:+: name.map Text.asciiLower := by
  have hw : slash ∉ Text.bytes name := mt Text.slash_mem_bytes_iff.mp hn
  rw [having, matchAtoms_many]
  constructor
  case mp  =>
    rintro ⟨u, v, hb, _, hv⟩
    obtain ⟨v, w, rfl, hv, _⟩ := matchAtoms_literals.mp hv
    refine Text.infix_of_bytes (x := u.map lowerByte) (y := w.map lowerByte) (by simpa using hs) ?_
    rw [Text.bytes_map_asciiLower, Text.bytes_map_asciiLower, ← hv, ← List.map_append,
      ← List.map_append, ← hb]
  case mpr =>
    rintro ⟨x, y, hxy⟩
    have hb := congrArg Text.bytes hxy
    rw [List.append_assoc, Text.bytes_append, Text.bytes_append, Text.bytes_map_asciiLower,
      Text.bytes_map_asciiLower] at hb
    obtain ⟨u, v, hb, _, hv⟩ := List.map_eq_append_iff.mp hb.symm
    obtain ⟨v, w, rfl, hv, _⟩ := List.map_eq_append_iff.mp hv
    rw [hb] at hw
    have hu : ∀ x ∈ u, notSlash x = true := fun x hx =>
      notSlash_iff.mpr fun he => hw <| he ▸ List.mem_append_left _ hx
    refine ⟨u, v ++ w, hb, hu, matchAtoms_literals.mpr ⟨v, w, rfl, hv, ?_⟩⟩
    exact matchAtoms_run.mpr fun hm => hw <| List.mem_append_right _ <| List.mem_append_right _ hm

-- Both globs look at the last name of a path.

theorem exists_named (hp : ∀ c ∈ s, IsPlain c) (hs : '/' ∉ s) :
    ∃ g, ofText? true (FileName.namedPattern s) = some g ∧
      ∀ name t, Text.IsTail '/' name t → '/' ∉ name → (g.test t = true ↔
        (s ++ ['.']).map Text.asciiLower <+: name.map Text.asciiLower) := by
  refine ⟨_, ofText?_named hp, fun name t h hn => ?_⟩
  have hr b := slash_notMem_starting (s := s ++ ['.']) (b := b) (by simpa using hs)
  have hw : slash ∉ Text.bytes name := mt Text.slash_mem_bytes_iff.mp hn
  rw [test_leading expandAll_starting, match_leading hr (tail_bytes h) hw, match_starting hn]

theorem exists_mention (hp : ∀ c ∈ s, IsPlain c) (hs : '/' ∉ s) (hne : s ≠ []) :
    ∃ g, ofText? true (FileName.mentionPattern s) = some g ∧
      ∀ name t, Text.IsTail '/' name t → '/' ∉ name → (g.test t = true ↔
        s.map Text.asciiLower <:+: name.map Text.asciiLower) := by
  refine ⟨_, ofText?_mention hp hne, fun name t h hn => ?_⟩
  have hr b := slash_notMem_having (b := b) hs
  have hw : slash ∉ Text.bytes name := mt Text.slash_mem_bytes_iff.mp hn
  rw [test_leading expandAll_having, match_leading hr (tail_bytes h) hw, match_having hn hne]

end Testing

end Glob

end LogOrigin
