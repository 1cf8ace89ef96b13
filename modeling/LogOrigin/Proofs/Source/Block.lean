import Mathlib.Data.List.Infix
import LogOrigin.Source.Block

-- The braces of code counted forwards, as the depth after a line, and backwards, as the closing ones
-- that have not met their opening ones; and where the block of a header ends.

namespace LogOrigin.Block

open Text

-- Every closing brace has its opening one before it.
def Settled (t : Text) : Prop :=
  ∀ u, u <+: t → 0 ≤ net u

-- The code of some lines one after the other.
def code (lines : List Text) : Text :=
  lines.flatMap Comment.strip

-- How many braces are open after a line, counted from a line above it on.
def depth (lines : List Text) (start line : Nat) : Int :=
  net (code ((lines.take (line + 1)).drop start))

variable {s t header : Text} {l lines : List Text} {i k n start : Nat} {d : Int}

@[simp]
theorem net_nil : net [] = 0 :=
  rfl

@[simp]
theorem net_append (s t : Text) : net (s ++ t) = net s + net t := by
  simp only [net, List.count_append]
  omega

theorem net_cons (c : Char) (t : Text) : net (c :: t) = net [c] + net t :=
  net_append [c] t

theorem net_singleton (c : Char) :
    net [c] = if c = '}' then -1 else if c = '{' then 1 else 0 := by
  by_cases ho : c = '{'
  case pos => simp [net, ho]
  case neg => by_cases hc : c = '}' <;> simp [net, ho, hc]

theorem opens_iff : opens t = true ↔ '{' ∈ t := by
  simp [opens]

theorem closes_eq_false_iff : closes t = false ↔ '}' ∉ t := by
  simp [closes]

theorem net_eq_count (h : closes t = false) : net t = t.count '{' := by
  simp [net, List.count_eq_zero.mpr (closes_eq_false_iff.mp h)]

theorem opens_of_net_pos (h : 0 < net t) : opens t = true := by
  rw [opens_iff, ← List.count_pos_iff]
  simp only [net] at h
  omega

theorem net_pos_of_opens (ho : opens t = true) (hc : closes t = false) : 0 < net t := by
  rw [net_eq_count hc]
  exact_mod_cast List.count_pos_iff.mpr (opens_iff.mp ho)

@[simp]
theorem code_nil : code [] = [] :=
  rfl

@[simp]
theorem code_cons (t : Text) (l : List Text) : code (t :: l) = Comment.strip t ++ code l :=
  rfl

theorem code_mono (h : l <+: lines) : code l <+: code lines :=
  h.flatMap Comment.strip

theorem unopened_append (n : Nat) (s t : Text) :
    unopened n (s ++ t) = unopened (unopened n t) s :=
  List.foldr_append

theorem forall_prefix_cons_iff {c : Char} :
    (∀ u, u <+: c :: t → -(k : Int) ≤ net u) ↔ ∀ u, u <+: t → -(k : Int) ≤ net [c] + net u := by
  constructor
  case mp =>
    intro h u hu
    exact net_cons c u ▸ h (c :: u) ((List.prefix_cons_inj c).mpr hu)
  case mpr =>
    intro h u hu
    rcases List.prefix_cons_iff.mp hu with rfl | ⟨v, rfl, hv⟩
    case inl => simp
    case inr => exact net_cons c v ▸ h v hv

-- What is left over after reading backwards is at least the largest lack of opening braces on the
-- way forwards, and at least what there was before less the braces that the text opens.
theorem unopened_le_iff :
    unopened n t ≤ k ↔ (∀ u, u <+: t → -(k : Int) ≤ net u) ∧ (n : Int) - k ≤ net t := by
  induction t generalizing k
  case nil =>
    have hs : unopened n [] = n := rfl
    simp only [hs, List.prefix_nil, forall_eq, net_nil]
    omega
  case cons c t hi =>
    have hs : unopened n (c :: t) =
        if c = '}' then unopened n t + 1 else if c = '{' then unopened n t - 1
        else unopened n t := rfl
    rw [hs, forall_prefix_cons_iff, net_cons c t, net_singleton]
    split_ifs
    case pos =>
      cases k
      case zero =>
        refine iff_of_false (Nat.not_succ_le_zero _) fun h => ?_
        have := h.1 [] List.nil_prefix
        simp at this
      case succ k =>
        rw [Nat.add_le_add_iff_right, hi]
        exact and_congr (forall₂_congr fun u _ => by omega) (by omega)
    case pos =>
      rw [Nat.sub_le_iff_le_add, hi]
      exact and_congr (forall₂_congr fun u _ => by omega) (by omega)
    case neg =>
      rw [hi]
      exact and_congr (forall₂_congr fun u _ => by omega) (by omega)

theorem unopened_eq_zero_iff : unopened 0 t = 0 ↔ Settled t := by
  rw [← Nat.le_zero, unopened_le_iff]
  constructor
  case mp =>
    intro h u hu
    simpa using h.1 u hu
  case mpr =>
    intro h
    exact ⟨fun u hu => by simpa using h u hu, by simpa using h t (List.prefix_refl t)⟩

-- What lies between a line and a later one.
def between (lines : List Text) (start line : Nat) : List Text :=
  (lines.take line).drop (start + 1)

theorem depth_eq (hl : lines[start]? = some header) (hk : start ≤ k) :
    depth lines start k = net (Comment.strip header) + net (code (between lines start (k + 1))) := by
  have ht : (lines.take (k + 1))[start]? = some header := by
    rw [List.getElem?_take_of_lt (Nat.lt_succ_of_le hk), hl]
  obtain ⟨hs, he⟩ := List.getElem?_eq_some_iff.mp ht
  rw [depth, List.drop_eq_getElem_cons hs, he, code_cons, net_append, between]

theorem between_mono (hk : k ≤ n) : between lines start k <+: between lines start n := by
  rw [between, between, ← Nat.min_eq_left hk, ← List.take_take]
  exact List.IsPrefix.drop (List.take_prefix k _) (start + 1)

theorem between_succ (hs : start < n) (hl : lines[n]? = some t) :
    between lines start (n + 1) = between lines start n ++ [t] := by
  have hn := (List.getElem?_eq_some_iff.mp hl).1
  have ht : start + 1 ≤ (lines.take n).length := by
    rw [List.length_take, Nat.min_eq_left (Nat.le_of_lt hn)]
    exact hs
  rw [between, List.take_add_one, hl, Option.toList_some, List.drop_append_of_le_length ht, between]

theorem take_between (lines : List Text) (start k : Nat) :
    (lines.drop (start + 1)).take k = between lines start (start + 1 + k) := by
  rw [List.take_drop, between]

theorem depth_drop (lines : List Text) (start k : Nat) :
    net (code ((lines.drop start).take (k + 1))) = depth lines start (start + k) := by
  rw [depth, List.take_drop, Nat.add_assoc]

-- A block with a brace ends on the first line after which no brace is open, if there is one.
theorem lastLine.go_opened (start header i : Nat) (d : Int) (l : List Text) :
    (go start header i d true l = start ∧ ∀ k, k < l.length → 0 < d + net (code (l.take (k + 1)))) ∨
    ∃ k, k < l.length ∧ go start header i d true l = i + k ∧
      d + net (code (l.take (k + 1))) ≤ 0 ∧ ∀ j, j < k → 0 < d + net (code (l.take (j + 1))) := by
  induction l generalizing i d
  case nil         => exact .inl ⟨rfl, fun k hk => absurd hk (Nat.not_lt_zero k)⟩
  case cons t l hi =>
    have hc (k : Nat) : d + net (code ((t :: l).take (k + 1))) =
        d + net (Comment.strip t) + net (code (l.take k)) := by
      rw [List.take_succ_cons, code_cons, net_append, Int.add_assoc]
    by_cases hd : d + net (Comment.strip t) ≤ 0
    case pos =>
      have hg : go start header i d true (t :: l) = i := by simp [go, hd]
      refine .inr ⟨0, Nat.succ_pos _, hg, by simpa [hc] using hd, fun j hj => ?_⟩
      exact absurd hj (Nat.not_lt_zero j)
    case neg =>
      have hg : go start header i d true (t :: l) =
          go start header (i + 1) (d + net (Comment.strip t)) true l := by simp [go, hd]
      have hz : 0 < d + net (code ((t :: l).take (0 + 1))) := by simpa [hc] using hd
      rw [hg]
      rcases hi (i + 1) (d + net (Comment.strip t)) with ⟨he, ho⟩ | ⟨k, hk, he, hn, ho⟩
      case inl =>
        refine .inl ⟨he, fun k hk => ?_⟩
        cases k
        case zero   => exact hz
        case succ k => exact hc (k + 1) ▸ ho k (Nat.lt_of_succ_lt_succ hk)
      case inr =>
        refine .inr ⟨k + 1, Nat.succ_lt_succ hk, by omega, hc (k + 1) ▸ hn, fun j hj => ?_⟩
        cases j
        case zero   => exact hz
        case succ j => exact hc (j + 1) ▸ ho j (Nat.lt_of_succ_lt_succ hj)

theorem lastLine_opened (hl : lines[start]? = some header)
    (ho : opens (Comment.strip header) = true) :
    let last := lastLine start (lines.drop start)
    (last = start ∧ ∀ k, start ≤ k → k < lines.length → 0 < depth lines start k) ∨
    (start ≤ last ∧ last < lines.length ∧ depth lines start last ≤ 0 ∧
      ∀ k, start ≤ k → k < last → 0 < depth lines start k) := by
  obtain ⟨hs, he⟩ := List.getElem?_eq_some_iff.mp hl
  have hd : lines.drop start = header :: lines.drop (start + 1) := by
    rw [List.drop_eq_getElem_cons hs, he]
  have hg : lastLine start (lines.drop start) =
      lastLine.go start (indent header) start 0 true (lines.drop start) := by
    simp [hd, lastLine, lastLine.go, ho]
  have hk (k : Nat) (hk : start ≤ k) :
      0 + net (code ((lines.drop start).take (k - start + 1))) = depth lines start k := by
    rw [depth_drop, Nat.add_sub_cancel' hk, Int.zero_add]
  intro last
  have hl : last = lastLine.go start (indent header) start 0 true (lines.drop start) := hg
  rcases lastLine.go_opened start (indent header) start 0 (lines.drop start)
    with ⟨hg, ho⟩ | ⟨m, hm, hg, hn, ho⟩
  case inl =>
    refine .inl ⟨hl.trans hg, fun k hs hn => ?_⟩
    rw [← hk k hs]
    exact ho _ (by rw [List.length_drop]; omega)
  case inr =>
    rw [List.length_drop] at hm
    have he : last = start + m := hl.trans hg
    refine .inr ⟨by omega, by omega, ?_, fun k hs hn => ?_⟩
    case refine_1 => rwa [← hk last (by omega), he, Nat.add_sub_cancel_left]
    case refine_2 =>
      rw [← hk k hs]
      exact ho _ (by omega)

-- A line with something on it that is not indented deeper than the header ends an indented block.
def Inside (header : Nat) (line : Text) : Prop :=
  isAllBlank line = false → header < indent line

theorem le_lastDeeper {header last : Nat} (hi : last ≤ i) (l : List Text) :
    last ≤ lastDeeper header last i l := by
  induction l generalizing last i
  case nil         => exact Nat.le_refl _
  case cons t l ih =>
    unfold lastDeeper
    split_ifs
    · exact ih (Nat.le_succ_of_le hi)
    · exact Nat.le_refl _
    · exact Nat.le_trans hi (ih (Nat.le_succ i))

theorem lastDeeper_lt {header last : Nat} (hl : last < i) (l : List Text) :
    lastDeeper header last i l < i + l.length := by
  induction l generalizing last i
  case nil         => exact hl
  case cons t l ih =>
    have hs : i + (l.length + 1) = i + 1 + l.length := by omega
    rw [List.length_cons, hs]
    unfold lastDeeper
    split_ifs
    · exact ih (Nat.lt_succ_of_lt hl)
    · omega
    · exact ih (Nat.lt_succ_self i)

-- Not above the line `n` there is a line with something on it up to which all lines belong to an
-- indented block. The first of the lines has the number `i`.
def Reaches (header n i : Nat) (l : List Text) : Prop :=
  ∃ k t, n ≤ i + k ∧ l[k]? = some t ∧ isAllBlank t = false ∧ ∀ u ∈ l.take (k + 1), Inside header u

theorem reaches_cons {header : Nat} : Reaches header n i (t :: l) ↔
    Inside header t ∧ (n ≤ i ∧ isAllBlank t = false ∨ Reaches header n (i + 1) l) := by
  have hs (k : Nat) : (∀ u ∈ (t :: l).take (k + 1), Inside header u) ↔
      Inside header t ∧ ∀ u ∈ l.take k, Inside header u := by
    rw [List.take_succ_cons, List.forall_mem_cons]
  constructor
  case mp =>
    rintro ⟨k, u, hk, hu, hb, ha⟩
    rw [hs] at ha
    cases k
    case zero   =>
      cases hu
      exact ⟨ha.1, .inl ⟨hk, hb⟩⟩
    case succ k => exact ⟨ha.1, .inr ⟨k, u, by omega, hu, hb, ha.2⟩⟩
  case mpr =>
    rintro ⟨ht, ⟨hn, hb⟩ | ⟨k, u, hk, hu, hb, ha⟩⟩
    case inl => exact ⟨0, t, hn, rfl, hb, (hs 0).mpr ⟨ht, by simp⟩⟩
    case inr => exact ⟨k + 1, u, by omega, hu, hb, (hs (k + 1)).mpr ⟨ht, ha⟩⟩

theorem le_lastDeeper_iff {header last : Nat} (hl : last < n) (l : List Text) :
    n ≤ lastDeeper header last i l ↔ Reaches header n i l := by
  induction l generalizing last i
  case nil         => simpa [lastDeeper, Reaches] using hl
  case cons t l ih =>
    unfold lastDeeper
    rw [reaches_cons]
    split_ifs
    case pos hb    =>
      have ht : Inside header t := fun h => by simp [hb] at h
      simp [ih hl, ht, hb]
    case pos hb hd =>
      have ht : ¬Inside header t := fun h => Nat.not_lt_of_le hd (h (by simpa using hb))
      simp [ht, hl]
    case neg hb hd =>
      have ht : Inside header t := fun _ => Nat.lt_of_not_le hd
      by_cases hi : n ≤ i
      case pos => simp [ht, hb, hi, Nat.le_trans hi (le_lastDeeper (Nat.le_succ i) l)]
      case neg => simp [ih (Nat.lt_of_not_le hi), ht, hi]

theorem lastLine_colon (hl : lines[start]? = some header)
    (ho : opens (Comment.strip header) = false) (hc : endsWithColon header = true) :
    lastLine start (lines.drop start) =
      lastDeeper (indent header) start (start + 1) (lines.drop (start + 1)) := by
  obtain ⟨hs, he⟩ := List.getElem?_eq_some_iff.mp hl
  have hd : lines.drop start = header :: lines.drop (start + 1) := by
    rw [List.drop_eq_getElem_cons hs, he]
  simp [hd, lastLine, lastLine.go, ho, hc]

theorem le_lastLine_iff (hl : lines[start]? = some header)
    (ho : opens (Comment.strip header) = false) (hc : endsWithColon header = true) (hn : start < n) :
    n ≤ lastLine start (lines.drop start) ↔
      ∃ k line, n ≤ k ∧ lines[k]? = some line ∧ isAllBlank line = false ∧
        ∀ u ∈ between lines start (k + 1), Inside (indent header) u := by
  rw [lastLine_colon hl ho hc, le_lastDeeper_iff hn]
  simp only [Reaches, take_between, List.getElem?_drop]
  constructor
  case mp =>
    rintro ⟨k, line, hk, h⟩
    exact ⟨start + 1 + k, line, hk, h⟩
  case mpr =>
    rintro ⟨k, line, hk, h⟩
    obtain ⟨j, rfl⟩ := Nat.exists_eq_add_of_le (Nat.lt_of_lt_of_le hn hk)
    exact ⟨j, line, hk, h⟩

theorem lastLine.go_bounds (start header i : Nat) (d : Int) (o : Bool) (l : List Text) :
    go start header i d o l = start ∨
      i ≤ go start header i d o l ∧ go start header i d o l < i + l.length := by
  induction l generalizing i d o
  case nil         => exact .inl rfl
  case cons t l ih =>
    have hs : i + (l.length + 1) = i + 1 + l.length := by omega
    unfold go
    dsimp only
    rw [List.length_cons, hs]
    split_ifs
    · exact .inr ⟨Nat.le_refl i, by omega⟩
    · exact .inr ⟨le_lastDeeper (Nat.le_succ i) l, lastDeeper_lt (Nat.lt_succ_self i) l⟩
    · rcases ih (i + 1) _ _ with h | ⟨h, h'⟩
      · exact .inl h
      · exact .inr ⟨Nat.le_of_succ_le h, h'⟩

-- The last line of a block is a line of the text, and not above the header.
theorem lastLine_bounds (hs : start < lines.length) :
    start ≤ lastLine start (lines.drop start) ∧
      lastLine start (lines.drop start) < lines.length := by
  have hd : start + (lines.drop start).length = lines.length := by
    rw [List.length_drop, Nat.add_sub_cancel' (Nat.le_of_lt hs)]
  rcases lastLine.go_bounds start (indent ((lines.drop start).headD [])) start 0 false
    (lines.drop start) with h | ⟨h, h'⟩
  case inl => exact ⟨Nat.le_of_eq h.symm, by rwa [lastLine, h]⟩
  case inr => exact ⟨h, Nat.lt_of_lt_of_eq h' hd⟩

end LogOrigin.Block
