import LogOrigin.Text.Basic

-- Maps with text keys, as lists of pairs in increasing order of keys.

namespace LogOrigin

abbrev KeyMap (α : Type) := List (Text × α)

namespace KeyMap

variable {α : Type}

-- Replaces the value of a key, or adds the key at its place.
def insert (k : Text) (v : α) : List (Text × α) → List (Text × α)
  | []     => [(k, v)]
  | e :: m =>
    if k = e.1 then (k, v) :: m
    else if Text.le k e.1 then (k, v) :: e :: m
    else e :: insert k v m

def get? (k : Text) : List (Text × α) → Option α
  | []     => none
  | e :: m => if k = e.1 then some e.2 else get? k m

def erase (k : Text) : List (Text × α) → List (Text × α)
  | []     => []
  | e :: m => if k = e.1 then m else e :: erase k m

-- Changes the value of a key, which is taken to be `d` if the key is new.
def modify (k : Text) (d : α) (f : α → α) (m : List (Text × α)) : List (Text × α) :=
  insert k (f ((get? k m).getD d)) m

theorem get?_insert_self (k : Text) (v : α) (m : List (Text × α)) :
    get? k (insert k v m) = some v := by
  induction m with
  | nil         => simp [insert, get?]
  | cons e m hi => simp only [insert]; split <;> (try split) <;> simp_all [get?]

theorem get?_insert_ne {k l : Text} (h : l ≠ k) (v : α) (m : List (Text × α)) :
    get? l (insert k v m) = get? l m := by
  induction m with
  | nil         => simp [insert, get?, h]
  | cons e m hi => simp only [insert]; split <;> (try split) <;> simp_all [get?]

-- Keys strictly increase.
def Sorted (m : List (Text × α)) : Prop :=
  m.Pairwise fun e f => Text.le e.1 f.1 ∧ e.1 ≠ f.1

theorem mem_insert {k : Text} {v : α} {m : List (Text × α)} {e : Text × α}
    (h : e ∈ insert k v m) : e = (k, v) ∨ e ∈ m := by
  induction m with
  | nil         => simp_all [insert]
  | cons f m hi =>
    simp only [insert] at h
    split at h
    · grind
    · split at h <;> grind

theorem Sorted.insert {m : List (Text × α)} (h : Sorted m) (k : Text) (v : α) :
    Sorted (KeyMap.insert k v m) := by
  induction m with
  | nil         => simp [KeyMap.insert, Sorted]
  | cons e m hi =>
    have ⟨he, hm⟩ := List.pairwise_cons.1 h
    simp only [KeyMap.insert]
    split
    · next hk => exact List.pairwise_cons.2 ⟨by simpa [hk] using he, hm⟩
    · next hk =>
      split
      · next hl =>
        refine List.pairwise_cons.2 ⟨?_, h⟩
        intro f hf
        rcases List.mem_cons.1 hf with rfl | hf
        · exact ⟨hl, hk⟩
        · have := he f hf
          refine ⟨Text.le_trans hl this.1, ?_⟩
          rintro rfl
          exact this.2 (Text.le_antisymm this.1 hl)
      · next hl =>
        refine List.pairwise_cons.2 ⟨?_, hi hm⟩
        intro f hf
        rcases mem_insert hf with rfl | hf
        · have := Text.le_total e.1 k
          rw [Bool.eq_false_iff.2 hl, Bool.or_false] at this
          exact ⟨this, Ne.symm hk⟩
        · exact he f hf

end KeyMap

end LogOrigin
