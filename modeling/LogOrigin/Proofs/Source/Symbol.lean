import Mathlib.Data.List.TakeWhile
import LogOrigin.Callers.Symbols
import LogOrigin.Proofs.Text.Blank
import LogOrigin.Proofs.Text.Pattern

-- Where a symbol says that its name stands, and which identifier is read there.

namespace LogOrigin

open Text

namespace Declaration

open Pattern

variable {line name t : Text}

-- Word characters, after which a mark may stand.
def IsName (t : Text) : Prop :=
  ∃ w m, t = w ++ m ∧ w ≠ [] ∧ (∀ c ∈ w, isWord c) ∧ m ∈ [[], ['?'], ['!']]

theorem IsName.ne_nil (h : IsName t) : t ≠ [] := by
  obtain ⟨w, m, rfl, hw, _⟩ := h
  simp [hw]

def marked : Pattern :=
  seq word (option (char fun c => c == '?' || c == '!'))

def plain : Pattern :=
  seq (char isIdentStart) (run 0 isWord)

theorem IsName.of_word (h : word.Accepts t) : IsName t := by
  obtain ⟨hl, hw⟩ : 1 ≤ t.length ∧ ∀ c ∈ t, isWord c := by
    cases h
    case run hl hw => exact ⟨hl, hw⟩
  exact ⟨t, [], by simp, List.ne_nil_of_length_pos hl, hw, by simp⟩

theorem IsName.of_marked (h : marked.Accepts t) : IsName t := by
  cases h
  case seq w m hw hm =>
  cases hw
  case run hl hw =>
  refine ⟨w, m, rfl, List.ne_nil_of_length_pos hl, hw, ?_⟩
  cases hm
  case left hm  =>
    cases hm
    case char c hc => simpa using hc
  case right hm =>
    cases hm
    simp

theorem IsName.of_plain (h : plain.Accepts t) : IsName t := by
  cases h
  case seq s w hs hw =>
  cases hs
  case char c hc =>
  cases hw
  case run _ hw =>
  refine ⟨c :: w, [], by simp, by simp, ?_, by simp⟩
  exact List.forall_mem_cons.mpr ⟨isWord_of_isIdentStart hc, hw⟩

-- The forms keep names of three kinds.
theorem keptIn_forms : forms.flatMap (keptIn .name) =
    [word, marked, word, word, word, plain, plain] := by
  rfl

theorem IsName.of_forms {a b : Pattern} (ha : a ∈ forms) (hb : b ∈ keptIn .name a)
    (h : b.Accepts t) : IsName t := by
  have hk : ∀ b ∈ forms.flatMap (keptIn .name), b = word ∨ b = marked ∨ b = plain := by
    simp [keptIn_forms]
  rcases hk b (List.mem_flatMap.mpr ⟨a, ha, hb⟩) with rfl | rfl | rfl
  case inl     => exact .of_word h
  case inr.inl => exact .of_marked h
  case inr.inr => exact .of_plain h

-- A declared name is a name that stands in the line.
theorem name?_spec (h : name? line = some name) : IsName name ∧ name <:+: line := by
  obtain ⟨a, ha, hn⟩ := List.exists_of_findSome?_eq_some h
  unfold nameBy? at hn
  split at hn
  case h_1    => cases hn
  case h_2 hp =>
    split at hn
    case h_1    => cases hn
    case h_2 hk =>
      simp only [Option.ite_none_left_eq_some, Option.some.injEq] at hn
      obtain ⟨_, _, rfl⟩ := hn
      have ⟨ht, b, hb, hc⟩ := kept_accepted hp hk
      exact ⟨.of_forms ha hb hc, ht⟩

end Declaration

namespace Symbol

variable {line name before after t : Text} {l : List Text} {s : Symbol} {n : Nat}

-- The first place of a line where a text stands.
structure FirstAt (name line before after : Text) : Prop where
  eq    : line = before ++ name ++ after
  first : ∀ u v, line = u ++ name ++ v → before.length ≤ u.length

theorem exists_firstAt (h : name <:+: line) :
    ∃ before after, FirstAt name line before after ∧
      offset? name line = some (byteSize before) := by
  induction line
  case nil =>
    obtain rfl := List.infix_nil.mp h
    exact ⟨[], [], ⟨rfl, fun _ _ _ => Nat.zero_le _⟩, rfl⟩
  case cons c line hi =>
    by_cases hs : startsWith (c :: line) name
    case pos =>
      obtain ⟨after, ha⟩ := startsWith_iff.mp hs
      exact ⟨[], after, ⟨ha, fun _ _ _ => Nat.zero_le _⟩, by simp [offset?, hs, byteSize]⟩
    case neg =>
      have hp : ¬name <+: c :: line := by
        rintro ⟨v, hv⟩
        exact hs (startsWith_iff.mpr ⟨v, hv.symm⟩)
      obtain ⟨before, after, hf, ho⟩ := hi ((List.infix_cons_iff.mp h).resolve_left hp)
      refine ⟨c :: before, after, ⟨by rw [hf.eq]; rfl, fun u v hu => ?_⟩, ?_⟩
      case refine_1 =>
        cases u
        case nil      => exact absurd ⟨v, hu.symm⟩ hp
        case cons d u =>
          have ht : line = u ++ name ++ v := (List.cons.inj hu).2
          exact Nat.succ_le_succ (hf.first u v ht)
      case refine_2 => simp [offset?, hs, ho, byteSize]

theorem cut?_cons (c : Char) (n : Nat) (t : Text) :
    cut? (c.utf8Size + n) (c :: t) = (cut? n t).map fun p => (c :: p.1, p.2) := by
  have hc : 0 < c.utf8Size + n := Nat.add_pos_left c.utf8Size_pos n
  obtain ⟨k, hk⟩ := Nat.exists_eq_add_one.mpr hc
  have hn : k + 1 - c.utf8Size = n := by omega
  rw [hk, cut?, if_pos (by omega), hn]

theorem cut?_append (before after : Text) :
    cut? (byteSize before) (before ++ after) = some (before, after) := by
  induction before
  case nil              => simp [byteSize, cut?]
  case cons c before hi => simp [byteSize, cut?_cons, hi]

-- The identifier characters before and after a column make one identifier.
theorem identifierAt?_append (before after : Text) :
    identifierAt? (before ++ after) (byteSize before) =
      let name := (before.reverse.takeWhile isIdent).reverse ++ after.takeWhile isIdent
      if name.isEmpty then none else some name := by
  rw [identifierAt?, cut?_append]

-- No identifier goes on there.
structure Isolated (before after : Text) : Prop where
  before : ∀ c ∈ before.getLast?, isIdent c = false
  after  : ∀ c ∈ after.head?, isIdent c = false

theorem takeWhile_eq_nil {p : Char → Bool} : t.takeWhile p = [] ↔ ∀ c ∈ t.head?, p c = false := by
  cases t <;> simp [List.takeWhile_cons]

theorem isolated_iff : Isolated before after ↔
    before.reverse.takeWhile isIdent = [] ∧ after.takeWhile isIdent = [] := by
  rw [takeWhile_eq_nil, takeWhile_eq_nil, List.head?_reverse]
  exact ⟨fun h => ⟨h.before, h.after⟩, fun h => ⟨h.1, h.2⟩⟩

theorem identifierAt?_eq_some_iff (hn : name ≠ []) :
    identifierAt? (before ++ name ++ after) (byteSize before) = some name ↔
      (∀ c ∈ name, isIdent c) ∧ Isolated before after := by
  rw [List.append_assoc, identifierAt?_append, isolated_iff]
  constructor
  case mp =>
    intro h
    have h : (before.reverse.takeWhile isIdent).reverse ++ (name ++ after).takeWhile isIdent =
        name := Option.some.inj (Option.ite_none_left_eq_some.mp h).2
    have hi : ∀ c ∈ name, isIdent c := by
      intro c hc
      rw [← h] at hc
      rcases List.mem_append.mp hc with hc | hc
      case inl => exact List.mem_takeWhile_imp (List.mem_reverse.mp hc)
      case inr => exact List.mem_takeWhile_imp hc
    have hl := congrArg List.length h
    rw [List.takeWhile_append_of_pos hi] at hl
    simp only [List.length_append, List.length_reverse] at hl
    exact ⟨hi, List.eq_nil_of_length_eq_zero (by omega), List.eq_nil_of_length_eq_zero (by omega)⟩
  case mpr =>
    rintro ⟨hi, hb, ha⟩
    simp [hb, List.takeWhile_append_of_pos hi, ha, hn]

theorem above_found {indent pending start : Nat} (h : above indent pending l = some (start, name)) :
    ∃ line, l.reverse[start]? = some line ∧ Declaration.name? (Comment.strip line) = some name := by
  induction l generalizing pending
  case nil            => cases h
  case cons line l hi =>
    rw [List.reverse_cons]
    unfold above at h
    dsimp only at h
    split at h
    case h_1 hf =>
      cases h
      refine ⟨line, by simp, ?_⟩
      split at hf
      case isTrue  => exact (Option.filter_eq_some_iff.mp hf).1
      case isFalse => cases hf
    case h_2    =>
      obtain ⟨line', hl, hn⟩ := hi h
      have hs := (List.getElem?_eq_some_iff.mp hl).1
      exact ⟨line', by rw [List.getElem?_append_left hs, hl], hn⟩

-- The line on which the name of a symbol is declared.
theorem enclosing?_found (h : enclosing? t n = some s) :
    ∃ line, (lines t)[s.startLine]? = some line ∧ s = ofLine (lines t) s.startLine s.name ∧
      Declaration.IsName s.name ∧ s.name <:+: line := by
  unfold enclosing? at h
  dsimp only at h
  split at h
  case h_1         => cases h
  case h_2 line hl =>
    split at h
    case h_1 hn =>
      cases h
      exact ⟨line, hl, rfl, Declaration.name?_spec hn⟩
    case h_2    =>
      obtain ⟨⟨start, name⟩, ha, rfl⟩ := Option.map_eq_some_iff.mp h
      obtain ⟨line', hl', hn⟩ := above_found ha
      have ⟨hn, hi⟩ := Declaration.name?_spec hn
      rw [List.reverse_reverse, List.getElem?_take, Option.ite_none_right_eq_some] at hl'
      exact ⟨line', hl'.2, rfl, hn, hi.trans (Comment.strip_prefix line').isInfix⟩

-- The column of a symbol is that of the first place where its name stands in the line. The name is
-- read back from there, and its uses are looked up, if and only if it is an identifier of its own at
-- that place.
theorem enclosing?_position (h : enclosing? t n = some s) :
    ∃ line before after, (lines t)[s.startLine]? = some line ∧ FirstAt s.name line before after ∧
      s.startColumn = byteSize before ∧ Declaration.IsName s.name ∧
      (identifierAt? line s.startColumn = some s.name ↔
        (∀ c ∈ s.name, isIdent c) ∧ Isolated before after) ∧
      ∀ fs file, fs.read file = .ok t →
        (SymbolIndex.text.references fs file s.startLine s.startColumn = .named s.name ↔
          (∀ c ∈ s.name, isIdent c) ∧ Isolated before after) := by
  obtain ⟨line, hl, hs, hn, hi⟩ := enclosing?_found h
  obtain ⟨before, after, hf, ho⟩ := exists_firstAt hi
  have hc : s.startColumn = byteSize before := by
    rw [hs]
    simp [ofLine, hl, ho]
  have hr : identifierAt? line s.startColumn = some s.name ↔
      (∀ c ∈ s.name, isIdent c) ∧ Isolated before after := by
    rw [hc, hf.eq]
    exact identifierAt?_eq_some_iff hn.ne_nil
  refine ⟨line, before, after, hl, hf, hc, hn, hr, fun fs file ht => ?_⟩
  rw [← hr]
  simp only [SymbolIndex.text, SymbolIndex.nameInFile?, ht, hl, Option.bind_some]
  cases identifierAt? line s.startColumn <;> simp

theorem enclosing?_position_function :
    let line := "pub fn place_order(id: u32) \x7b".toList
    let t := line ++ "\n    helper();\n\x7d\n".toList
    let s : Symbol := ⟨"place_order".toList, 0, 7, 2⟩
    let file : FilePath := ⟨"/a.rs".toList⟩
    let fs : Files := ⟨.dir [("a.rs".toList, .file (String.ofList t).toUTF8)], []⟩
    enclosing? t 1 = some s ∧ SymbolIndex.text.references fs file 0 7 = .named s.name ∧
    ∃ before after, FirstAt s.name line before after ∧ Isolated before after := by
  intro line t s file fs
  have h : enclosing? t 1 = some s := by decide +kernel
  obtain ⟨line', before, after, hl, hf, _, _, hr, hu⟩ := enclosing?_position h
  have hs : (lines t)[0]? = some line := by decide +kernel
  obtain rfl : line = line' := Option.some.inj (hs.symm.trans hl)
  have hi := hr.mp (by decide +kernel)
  exact ⟨h, (hu fs file (by decide +kernel)).mpr hi, before, after, hf, hi.2⟩

-- The name of the function is also the first letter of the keyword before it.
theorem identifierAt?_keyword :
    ¬∀ (t : Text) (n : Nat) (s : Symbol), enclosing? t n = some s →
      (∀ c ∈ s.name, isWord c ∧ isIdent c) →
      ∃ line, (lines t)[s.startLine]? = some line ∧
        identifierAt? line s.startColumn = some s.name := by
  intro h
  obtain ⟨line, hl, hi⟩ :=
    h "fn f() \x7b\x7d".toList 0 ⟨['f'], 0, 0, 0⟩ (by decide +kernel) (by decide +kernel)
  obtain rfl : "fn f() \x7b\x7d".toList = line := Option.some.inj hl
  have hk : identifierAt? "fn f() \x7b\x7d".toList 0 = some ['f', 'n'] := by decide +kernel
  rw [hk] at hi
  cases hi

end Symbol

end LogOrigin
