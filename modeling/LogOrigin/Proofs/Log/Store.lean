import LogOrigin.Log.Store
import LogOrigin.Proofs.Log.Batch

-- The records that a store holds after any loads and any changes of messages.

namespace LogOrigin

open Text

-- A text whose lines all are blank has no records, whatever the grammars are.
theorem Parser.parseBatch_blank (p : Parser) {t : Text} (h : ∀ line ∈ lines t, IsBlankLine line) :
    p.parseBatch t = .error .batchEmpty := by
  have hn : (lines t).filterMap p.parseLine = [] :=
    List.filterMap_eq_nil_iff.mpr fun line hl => parseLine_blank <| h line hl
  rw [parseBatch, hn]

namespace RecordStore

variable {s : RecordStore} {id : Nat} {p : Parser} {t : Text} {e : Failure}

theorem load_failed (s : RecordStore) (h : p.parseBatch t = .error e) :
    s.load p t = (.error e, s) := by
  rw [load, h]

theorem get_of_le (h : s.size ≤ id) : s.get id = .error (.unknownRecord id) := by
  rw [get, List.getElem?_eq_none h]

theorem setMessage_of_le (h : s.size ≤ id) (t : Text) :
    s.setMessage id t = (.error (.unknownRecord id), s) := by
  rw [setMessage, get_of_le h]

-- What can be done to a store. A history of changes starts with the latest one.
inductive Change where
  | load (p : Parser) (t : Text)
  | setMessage (id : Nat) (t : Text)

def change (s : RecordStore) : Change → RecordStore
  | .load p t        => (s.load p t).2
  | .setMessage id t => (s.setMessage id t).2

def after : List Change → RecordStore
  | []     => .empty
  | c :: l => (after l).change c

-- The message that a change gives to a record.
def Change.message? (id : Nat) : Change → Option Text
  | load ..          => none
  | setMessage id' t => if id = id' then some t else none

-- Whether the log stays the same.
def Change.KeepsLog : Change → Prop
  | load p t      => ∃ e, p.parseBatch t = .error e
  | setMessage .. => True

-- A record with the latest message that it is given in a history.
def revised (l : List Change) (id : Nat) (r : Record) : Record :=
  { r with message := (l.findSome? (Change.message? id)).getD r.message }

-- The records that there should be after a history: those of the last log that has been loaded,
-- with the messages that they have been given since.
inductive Recorded : List Change → List Record → Prop where
  | nothing {l : List Change} :
    (∀ c ∈ l, c.KeepsLog) →
    Recorded l []
  | loaded {since before : List Change} {p : Parser} {t : Text} {records : List Record} :
    (∀ c ∈ since, c.KeepsLog) →
    p.parseBatch t = .ok records →
    Recorded (since ++ .load p t :: before) (records.mapIdx (revised since))

variable {l : List Change} {c : Change} {records : List Record}

theorem revised_of_none (h : ∀ c ∈ l, c.message? id = none) : revised l id = fun r => r := by
  funext r
  rw [revised, List.findSome?_eq_none_iff.mpr h]
  rfl

theorem mapIdx_revised_eq (h : ∀ id, ∀ c ∈ l, c.message? id = none) (records : List Record) :
    records.mapIdx (revised l) = records := by
  apply List.ext_getElem?
  intro i
  simp [revised_of_none (h i)]

-- As long as the log stays the same, at most messages change.
theorem records_change (s : RecordStore) (h : c.KeepsLog) :
    (s.change c).records = s.records.mapIdx (revised [c]) := by
  cases c
  case load p t =>
    obtain ⟨e, he⟩ := h
    rw [change, s.load_failed he, mapIdx_revised_eq fun _ => List.forall_mem_singleton.mpr rfl]
  case setMessage id t =>
    apply List.ext_getElem?
    intro i
    rw [List.getElem?_mapIdx, change, setMessage, get]
    by_cases hi : i = id
    case pos =>
      subst hi
      cases hr : s.records[i]?
      case none   => simp [hr]
      case some r =>
        have hl := (List.getElem?_eq_some_iff.mp hr).1
        simp [set, revised, Change.message?, List.getElem?_set_self hl]
    case neg =>
      have hn : revised [.setMessage id t] i = fun r => r :=
        revised_of_none <| List.forall_mem_singleton.mpr <| if_neg hi
      cases hr : s.records[id]?
      case none   => simp [hn]
      case some r => simp [set, hn, List.getElem?_set_ne (Ne.symm hi)]

theorem revised_cons (c : Change) (l : List Change) (id : Nat) (r : Record) :
    revised (c :: l) id r = revised [c] id (revised l id r) := by
  cases h : c.message? id
  all_goals simp [revised, h]

theorem Recorded.keep (h : Recorded l records) (hc : c.KeepsLog) :
    Recorded (c :: l) (records.mapIdx (revised [c])) := by
  cases h
  case nothing hl      => exact .nothing <| List.forall_mem_cons.mpr ⟨hc, hl⟩
  case loaded since _ _ _ records hs hp =>
    have hr : (records.mapIdx (revised since)).mapIdx (revised [c]) =
        records.mapIdx (revised (c :: since)) := by
      rw [List.mapIdx_mapIdx]
      congr 1
      funext id r
      exact (revised_cons c since id r).symm
    rw [hr]
    exact .loaded (List.forall_mem_cons.mpr ⟨hc, hs⟩) hp

theorem Recorded.load (l : List Change) (h : p.parseBatch t = .ok records) :
    Recorded (.load p t :: l) records := by
  have hr : records.mapIdx (revised []) = records := mapIdx_revised_eq (by simp) records
  have hl : Recorded ([] ++ .load p t :: l) (records.mapIdx (revised [])) := .loaded nofun h
  rwa [hr] at hl

theorem recorded_after (l : List Change) : Recorded l (after l).records := by
  induction l
  case nil         => exact .nothing nofun
  case cons c l hi =>
    have keep (h : c.KeepsLog) : Recorded (c :: l) (after (c :: l)).records := by
      rw [after, records_change _ h]
      exact hi.keep h
    cases c
    case setMessage => exact keep trivial
    case load p t   =>
      cases hp : p.parseBatch t
      case error e => exact keep ⟨e, hp⟩
      case ok      =>
        rw [after, change, RecordStore.load, hp]
        exact .load l hp

end RecordStore

end LogOrigin
