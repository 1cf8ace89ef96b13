import LogOrigin.Proofs.Oracle.Reply
import LogOrigin.Proofs.Text.KeyMap

-- Analyses out of replies. An object says the same whatever is written around it, and where there
-- is no object nothing is said about the message.

namespace LogOrigin

open Text Json

variable {p q s t : Text} {v : Json} {m : List (Text × Json)} {a b : Char}

namespace Json

theorem openBrace_of_object (h : read? t = some v) (ho : v.isObject = true) : '{' ∈ t := by
  cases read?_eq_some_iff.mp h with
  | padded _ hv _ =>
    obtain ⟨s, rfl⟩ := hv.object_text ho
    simp

-- The members of an object inside an object have keys of their own as well.
theorem sorted_of_get? {k : Text} (h : read? t = some v) (hm : v.get? k = some (.object m)) :
    KeyMap.Sorted m := by
  cases v <;> simp only [get?, reduceCtorEq] at hm
  case object n =>
    cases read?_eq_some_iff.mp h with
    | padded _ hv _ =>
      obtain ⟨_, _, hd⟩ := hv.exists_value <| KeyMap.mem_of_get? hm
      exact hd.sorted

end Json

namespace Reply

-- Neither end of an object can be mistaken: no brace before it opens anything, no brace behind it
-- closes anything, and its own outermost braces are its first and its last character.
theorem document?_wrapped (hs : read? s = some v) (ho : v.isObject = true) (hp : '{' ∉ p)
    (hq : '}' ∉ q) (hw : read? (trim (p ++ (s ++ q))) = none) :
    document? (p ++ (s ++ q)) = some v := by
  cases read?_eq_some_iff.mp hs with
  | @padded _ a t b _ ha ht hb =>
    have hpa : '{' ∉ p ++ a := by simp [hp, (prose_of_spaces ha).openBrace]
    have hbq : '}' ∉ b ++ q := by simp [hq, (prose_of_spaces hb).closeBrace]
    have hs : p ++ (a ++ (t ++ b) ++ q) = (p ++ a) ++ (t ++ (b ++ q)) := by simp
    rw [hs] at hw ⊢
    exact document?_object ht le_rfl ho hpa hbq hw

theorem mem_of_between? {c : Char} (h : between? a b t = some s) (hc : c ∈ s) : c ∈ t := by
  simp only [between?, Option.ite_none_left_eq_some, Option.some.injEq] at h
  obtain ⟨_, rfl⟩ := h
  have hr := (List.dropWhile_sublist _).mem <| List.mem_reverse.mp hc
  exact (List.dropWhile_sublist _).mem <| List.mem_reverse.mp hr

theorem document?_cases (h : document? t = some v) :
    read? (trim t) = some v ∨ ∃ a b s, between? a b t = some s ∧ read? s = some v := by
  have part {a b : Char} (h : (between? a b t).bind read? = some v) :
      ∃ a b s, between? a b t = some s ∧ read? s = some v :=
    ⟨a, b, Option.bind_eq_some_iff.mp h⟩
  unfold document? at h
  cases hw : read? (trim t)
  case some => exact .inl <| by simpa [hw] using h
  case none =>
    cases hb : (between? '{' '}' t).bind read?
    all_goals simp only [hw, hb, Option.orElse] at h
    case some => exact .inr <| part <| hb.trans h
    case none => exact .inr <| part h

-- Whichever part of a reply is taken for its document, an object needs an opening brace.
theorem openBrace_of_document? (h : document? t = some v) (ho : v.isObject = true) : '{' ∈ t := by
  rcases document?_cases h with h | ⟨_, _, _, hs, h⟩
  case inr => exact mem_of_between? hs <| openBrace_of_object h ho
  case inl =>
    obtain ⟨x, y, ht, _⟩ := exists_trim t
    rw [ht]
    simp [openBrace_of_object h ho]

end Reply

namespace Analysis

theorem ofJson_of_not_object (h : v.isObject = false) : ofJson v = empty := by
  cases v
  case object => cases h
  all_goals rfl

theorem values_ofJson (h : v.get? "variables".toList = some (.object m)) :
    (ofJson v).values = m.map fun e => (e.1, e.2.plain) := by
  simp only [ofJson, h]

-- Prose around an object changes nothing: the analysis is the one of the object, in which every
-- entry of its variables has its text under its key, and nothing else has a key. Where no brace
-- opens there is no object, and the analysis is empty.
theorem ofReply_wrapped (hs : read? s = some v) (ho : v.isObject = true) (hp : '{' ∉ p)
    (hq : '}' ∉ q) (hw : read? (trim (p ++ (s ++ q))) = none) :
    let a := ofReply (p ++ (s ++ q))
    a = ofJson v ∧
    (∀ m, v.get? "variables".toList = some (.object m) →
      a.values.map Prod.fst = m.map Prod.fst ∧
      ∀ k w, (k, w) ∈ m → KeyMap.get? k a.values = some w.plain) ∧
    ∀ t, '{' ∉ t → ofReply t = empty := by
  intro a
  have ha : a = ofJson v := by simp only [a, ofReply, Reply.document?_wrapped hs ho hp hq hw]
  refine ⟨ha, fun m hm => ?entries, fun t ht => ?nothing⟩
  case entries =>
    rw [ha, values_ofJson hm]
    refine ⟨by simp, fun k w hk => ?_⟩
    rw [KeyMap.get?_map, KeyMap.get?_of_mem (sorted_of_get? hs hm) hk, Option.map_some]
  case nothing =>
    unfold ofReply
    split
    case h_2      => rfl
    case h_1 v hv =>
      cases hv' : v.isObject
      case false => exact ofJson_of_not_object hv'
      case true  => exact absurd (Reply.openBrace_of_document? hv hv') ht

-- Braces in strings and in the variables, and brackets and characters of several bytes around.
theorem ofReply_wrapped_fenced :
    let s : Text :=
      "\x7b\"static_search_string\": \"a \x7d\", \"variables\": \x7b\"ü\x7b\": 7\x7d\x7d".toList
    let p : Text := "Für [1]:\n\x60\x60\x60json\n".toList
    let q : Text := "\n\x60\x60\x60 …]".toList
    (∃ v, read? s = some v ∧ v.isObject = true) ∧
    '{' ∉ p ∧
    '}' ∉ q ∧
    read? (trim (p ++ (s ++ q))) = none ∧
    ofReply (p ++ (s ++ q)) = ⟨"a \x7d".toList, [("ü\x7b".toList, ['7'])]⟩ ∧
    ofReply p = empty := by
  intro s p q
  have hs : (read? s).map ofJson = some ⟨"a \x7d".toList, [("ü\x7b".toList, ['7'])]⟩ := by
    decide +kernel
  have ho : (read? s).map isObject = some true := by decide +kernel
  obtain ⟨v, hv, ha⟩ := Option.map_eq_some_iff.mp hs
  have ho : v.isObject = true := by simpa [hv] using ho
  have hw : read? (trim (p ++ (s ++ q))) = none := Option.isNone_iff_eq_none.mp (by decide +kernel)
  have ⟨wrapped, _, nothing⟩ := ofReply_wrapped hv ho (by decide) (by decide) hw
  exact ⟨⟨v, hv, ho⟩, by decide, by decide, hw, wrapped.trans ha, nothing p (by decide)⟩

end Analysis

end LogOrigin
