import LogOrigin.Oracle.Ranking
import LogOrigin.Proofs.Json.Documents
import LogOrigin.Proofs.Text.Blank
import LogOrigin.Proofs.Text.Trim

-- Replies in prose. What is taken out of the prose is the document of the reply, but for an array of
-- one object, which loses its brackets.

namespace LogOrigin

open Text Json

variable {a p q s t : Text} {v : Json} {l : List Json} {d : Nat}

namespace Text

theorem trim_enclosed {c e : Char} (hc : isBlank c = false) (he : isBlank e = false) :
    trim (c :: (t ++ [e])) = c :: (t ++ [e]) := by
  rw [trim, trimStart_eq (by simpa using hc), trimEnd]
  exact dropEndWhile_eq (by simpa [List.getLast?_cons] using he)

end Text

namespace Json

-- The part of an array of objects from the first opening brace to the last closing one is a document
-- if there is one object only.
theorem Denotes.items_braces (h : Denotes d t (.items l)) (hd : d ≤ maxDepth)
    (hl : ∀ w ∈ l, w.isObject = true) : ∃ a s b, t = a ++ '{' :: (s ++ '}' :: (b ++ [']'])) ∧
      Spaces a ∧ Spaces b ∧ ∀ w, read? ('{' :: (s ++ ['}'])) = some w ↔ l = [w] := by
  generalize hx : Piece.items l = x at h
  induction h generalizing l <;> cases hx
  case lastItem hp _  =>
    cases hp with
    | @padded _ a _ b _ ha hc hb =>
      obtain ⟨s, rfl⟩ := hc.object_text (hl _ List.mem_cons_self)
      exact ⟨a, s, b, by simp, ha, hb, by simp [hc.read?_eq hd]⟩
  case item hp h _ hi =>
    cases hp with
    | @padded _ a _ b _ ha hc hb =>
      obtain ⟨s, rfl⟩ := hc.object_text (hl _ List.mem_cons_self)
      obtain ⟨a', s', b', rfl, _, hb', _⟩ := hi hd (fun w hw => hl w (List.mem_cons_of_mem _ hw)) rfl
      refine ⟨a, s ++ '}' :: (b ++ ',' :: (a' ++ '{' :: s')), b', by simp, ha, hb', fun w => ?_⟩
      have := hc.read?_eq_none hd hb (a' ++ '{' :: (s' ++ ['}']))
      have hn := h.items_ne_nil
      simp_all

end Json

namespace Reply

-- The part from the first `a` to the last `b` is found whatever else stands before and after it.
theorem between?_eq {a b : Char} (hp : a ∉ p) (hq : b ∉ q) (t : Text) :
    between? a b (p ++ a :: (t ++ b :: q)) = some (a :: (t ++ [b])) := by
  have ha : (p ++ a :: (t ++ b :: q)).dropWhile (· != a) = a :: (t ++ b :: q) := by
    rw [List.dropWhile_append_of_pos fun c hc => bne_iff_ne.mpr (ne_of_mem_of_not_mem hc hp)]
    simp
  have hb : (a :: (t ++ b :: q)).reverse.dropWhile (· != b) = (a :: (t ++ [b])).reverse := by
    have hr : ∀ c ∈ q.reverse, (c != b) = true := fun c hc =>
      bne_iff_ne.mpr (ne_of_mem_of_not_mem (List.mem_reverse.mp hc) hq)
    rw [List.append_cons, ← List.cons_append, List.reverse_append, List.dropWhile_append_of_pos hr]
    simp
  simp only [between?, ha, hb]
  simp

theorem between?_eq_none {a b : Char} (h : a ∉ t) : between? a b t = none := by
  have ha : t.dropWhile (· != a) = [] :=
    List.dropWhile_eq_nil_iff.mpr fun c hc => bne_iff_ne.mpr (ne_of_mem_of_not_mem hc h)
  simp [between?, ha]

-- Text without the brackets of objects and arrays.
def Prose (t : Text) : Prop :=
  ∀ c ∈ t, c ≠ '{' ∧ c ≠ '}' ∧ c ≠ '[' ∧ c ≠ ']'

theorem Prose.append (hp : Prose p) (hq : Prose q) : Prose (p ++ q) :=
  List.forall_mem_append.mpr ⟨hp, hq⟩

theorem prose_of_spaces (ha : Spaces a) : Prose a := by
  intro c hc
  rcases isSpace_iff.mp (ha c hc) with rfl | rfl | rfl | rfl <;> decide

namespace Prose

variable (hp : Prose p)

include hp

theorem openBrace : '{' ∉ p := fun h => (hp _ h).1 rfl

theorem closeBrace : '}' ∉ p := fun h => (hp _ h).2.1 rfl

theorem openBracket : '[' ∉ p := fun h => (hp _ h).2.2.1 rfl

theorem closeBracket : ']' ∉ p := fun h => (hp _ h).2.2.2 rfl

end Prose

theorem document?_of_braces (hw : read? (trim t) = none) (hs : between? '{' '}' t = some s)
    (hv : read? s = some v) : document? t = some v := by
  simp [document?, hw, hs, hv]

theorem document?_of_brackets (hw : read? (trim t) = none)
    (hn : (between? '{' '}' t).bind read? = none) (hs : between? '[' ']' t = some s)
    (hv : read? s = some v) : document? t = some v := by
  simp only [document?, hw, hn, hs, Option.bind_some, hv]
  rfl

-- What is taken out of prose: an array of one item loses its brackets.
def bare : Json → Json
  | .array [w] => w
  | v          => v

theorem bare_eq (h : ∀ w, v ≠ array [w]) : bare v = v := by
  unfold bare
  split
  case h_1 w => exact absurd rfl (h w)
  case h_2   => rfl

theorem document?_object (hv : Denotes d t (.value v)) (hd : d ≤ maxDepth) (ho : v.isObject = true)
    (hp : '{' ∉ p) (hq : '}' ∉ q) (hw : read? (trim (p ++ (t ++ q))) = none) :
    document? (p ++ (t ++ q)) = some v := by
  have ⟨x, hx⟩ := hv.object_text ho
  have : between? '{' '}' (p ++ (t ++ q)) = some t := by simpa [hx] using between?_eq hp hq x
  exact document?_of_braces hw this (hv.read?_eq hd)

theorem document?_array (hv : Denotes d t (.value (.array l))) (hd : d ≤ maxDepth)
    (hl : ∀ w ∈ l, w.isObject = true) (hp : Prose p) (hq : Prose q)
    (hw : read? (trim (p ++ (t ++ q))) = none) :
    document? (p ++ (t ++ q)) = some (bare (.array l)) := by
  have ⟨x, hx⟩ := hv.array_text
  have hbracket : between? '[' ']' (p ++ (t ++ q)) = some t := by
    simpa [hx] using between?_eq hp.openBracket hq.closeBracket x
  have hread := hv.read?_eq hd
  cases hv
  case emptyArray a ha =>
    have ha := (prose_of_spaces ha).openBrace
    refine document?_of_brackets hw ?_ hbracket hread
    rw [between?_eq_none (by simp [hp.openBrace, hq.openBrace, ha])]
    rfl
  case array d t ht =>
    obtain ⟨a, s, b, rfl, ha, hb, hs⟩ := ht.items_braces (by omega) hl
    have hbrace : between? '{' '}' (p ++ ('[' :: (a ++ '{' :: (s ++ '}' :: (b ++ [']']))) ++ q)) =
        some ('{' :: (s ++ ['}'])) := by
      have hpa : '{' ∉ p ++ '[' :: a := by simp [hp.openBrace, (prose_of_spaces ha).openBrace]
      have hbq : '}' ∉ b ++ ']' :: q := by simp [hq.closeBrace, (prose_of_spaces hb).closeBrace]
      simpa using between?_eq hpa hbq s
    cases hr : read? ('{' :: (s ++ ['}']))
    case none =>
      rw [bare_eq fun w he => by simp [(hs w).mpr (array.inj he)] at hr]
      exact document?_of_brackets hw (by rw [hbrace, Option.bind_some, hr]) hbracket hread
    case some w =>
      cases (hs w).mp hr
      exact document?_of_braces hw hbrace hr

-- Objects and arrays of objects.
def isReply : Json → Bool
  | .object _ => true
  | .array l  => l.all isObject
  | _         => false

theorem isReply_of_isObject (h : v.isObject = true) : isReply v = true := by
  cases v <;> simp_all [isObject, isReply]

theorem document?_prose (hs : read? s = some v) (hv : isReply v = true) (hp : Prose p)
    (hq : Prose q) (hw : read? (trim (p ++ (s ++ q))) = none) :
    document? (p ++ (s ++ q)) = some (bare v) := by
  cases read?_eq_some_iff.mp hs with
  | @padded _ a t b _ ha ht hb =>
    have hpa := hp.append (prose_of_spaces ha)
    have hbq := (prose_of_spaces hb).append hq
    have hs : p ++ (a ++ (t ++ b) ++ q) = (p ++ a) ++ (t ++ (b ++ q)) := by simp
    rw [hs] at hw ⊢
    cases v <;> simp only [isReply, Bool.false_eq_true] at hv
    case array  => exact document?_array ht le_rfl (List.all_eq_true.mp hv) hpa hbq hw
    case object => exact document?_object ht le_rfl rfl hpa.openBrace hbq.closeBrace hw

theorem document?_eq (hs : read? s = some v) (hv : isReply v = true) : document? s = some v := by
  cases read?_eq_some_iff.mp hs with
  | @padded _ a t b _ ha ht hb =>
    have htrim : trim t = t := by
      cases v <;> simp only [isReply, Bool.false_eq_true] at hv
      case array  =>
        obtain ⟨x, rfl⟩ := ht.array_text
        exact trim_enclosed (by decide) (by decide)
      case object =>
        obtain ⟨x, rfl⟩ := ht.object_text rfl
        exact trim_enclosed (by decide) (by decide)
    rw [document?, trim_blanks_append fun c hc => isBlank_of_isSpace (ha c hc),
      trim_append_blanks fun c hc => isBlank_of_isSpace (hb c hc), htrim, ht.read?_eq le_rfl]
    rfl

end Reply

namespace RankedCall

-- Prose around a reply changes nothing, unless the reply is an array of one object: then the object
-- is read as though it were the whole reply.
theorem ofReply_prose (hs : read? s = some v) (hv : Reply.isReply v = true) (hp : Reply.Prose p)
    (hq : Reply.Prose q) (hw : read? (trim (p ++ (s ++ q))) = none) :
    ((∀ w, v ≠ array [w]) → ofReply (p ++ (s ++ q)) = ofReply s) ∧
    ∀ w, v = array [w] → ofReply s = [ofJson w] ∧
      ofReply (p ++ (s ++ q)) = ((itemsOf w).filter isObject).map ofJson := by
  have hbare := Reply.document?_prose hs hv hp hq hw
  have hself := Reply.document?_eq hs hv
  refine ⟨fun hn => ?_, fun w he => ?_⟩
  case refine_1 => rw [ofReply, hbare, ofReply, hself, Reply.bare_eq hn]
  case refine_2 =>
    subst he
    have hw : w.isObject = true := by simpa [Reply.isReply] using hv
    exact ⟨by simp [ofReply, hself, itemsOf, hw], by simp [ofReply, hbare, Reply.bare]⟩

theorem ofReply_prose_callers :
    let s : Text := "\x7b\"callers\": [\x7b\"file\": \"a.rs\"\x7d]\x7d".toList
    let p : Text := "Sure: ".toList
    let q : Text := "\nBye".toList
    (∃ v, read? s = some v ∧ Reply.isReply v = true ∧ ∀ w, v ≠ array [w]) ∧
    Reply.Prose p ∧
    Reply.Prose q ∧
    read? (trim (p ++ (s ++ q))) = none ∧
    ofReply (p ++ (s ++ q)) = ofReply s := by
  intro s p q
  have hs : (read? s).map isObject = some true := by decide +kernel
  obtain ⟨v, hs, ho⟩ := Option.map_eq_some_iff.mp hs
  have hv : Reply.isReply v = true := Reply.isReply_of_isObject ho
  have hn : ∀ w, v ≠ array [w] := by
    rintro _ rfl
    cases ho
  have hp : Reply.Prose p := by unfold Reply.Prose; decide
  have hq : Reply.Prose q := by unfold Reply.Prose; decide
  have hw : read? (trim (p ++ (s ++ q))) = none := Option.isNone_iff_eq_none.mp (by decide +kernel)
  exact ⟨⟨v, hs, hv, hn⟩, hp, hq, hw, (ofReply_prose hs hv hp hq hw).1 hn⟩

-- The only entry of a list has no list of its own.
theorem ofReply_prose_single :
    let s : Text := "[\x7b\"file\": \"a.rs\", \"line\": 3, \"confidence\": 1.0\x7d]".toList
    let p : Text := "Sure:\n".toList
    (∃ v, read? s = some v ∧ Reply.isReply v = true) ∧
    Reply.Prose p ∧
    Reply.Prose [] ∧
    read? (trim (p ++ (s ++ []))) = none ∧
    ofReply s = [⟨⟨"a.rs".toList⟩, 3, [], .one, []⟩] ∧
    ofReply (p ++ (s ++ [])) = [] := by
  intro s p
  have hs : (read? s).map Reply.isReply = some true := by decide +kernel
  have hp : Reply.Prose p := by unfold Reply.Prose; decide
  exact ⟨Option.map_eq_some_iff.mp hs, hp, nofun, Option.isNone_iff_eq_none.mp (by decide +kernel),
    by decide +kernel, by decide +kernel⟩

end RankedCall

end LogOrigin
