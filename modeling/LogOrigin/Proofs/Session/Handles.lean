import LogOrigin.Proofs.Session.Operations

-- A session with the handles that it has given out and that somebody still has. They are run,
-- finished and dropped in any order, while the session goes on with other logs and other records.

namespace LogOrigin

-- A handle, with the time when it was given out.
inductive Handle where
  | pending (time : Nat) (p : PendingLocate)
  | completed (time : Nat) (d : CompletedLocate)

-- What stays the same as long as there is a handle.
structure Ticket where
  time       : Nat
  id         : Nat
  token      : CancellationToken
  generation : Nat
  deriving DecidableEq

def Handle.ticket : Handle → Ticket
  | pending time p   => ⟨time, p.id, p.token, p.generation⟩
  | completed time d => ⟨time, d.id, d.token, d.generation⟩

structure SharedSession (σ : Type) where
  session : Session σ
  handles : List Handle

namespace SharedSession

variable {σ : Type}

-- What can be seen of a step.
inductive Event where
  | loaded (answer : Except Failure Nat)
  | began (id : Nat) (answer : Except Failure (Option PendingLocate))
  | ran (t : Ticket)
  | finished (t : Ticket) (answer : Except Failure (Option Resolution))
  | dropped (t : Ticket)
  | cancelled (token : CancellationToken)
  | analyzed (id : Nat)
  | located (id : Nat)
  | listed (id : Nat)
  | expanded (id : Nat) (way : List Nat)

-- The history of a session starts with the latest event. The time of an event is the number of
-- those before it.
abbrev History := List Event

namespace History

def event? (h : History) (time : Nat) : Option Event :=
  h.reverse[time]?

-- The time at which the latest handle was given out, if no log has been loaded since.
def latest : History → Option Nat
  | []                            => none
  | .began _ (.ok (some _)) :: h  => some h.length
  | .loaded (.ok _) :: _          => none
  | _ :: h                        => latest h

variable {h : History} {e e' : Event} {n : Nat}

theorem event?_self (h : History) (e : Event) : event? (e :: h) h.length = some e := by
  simp [event?]

theorem event?_cons (e' : Event) (he : event? h n = some e) : event? (e' :: h) n = some e := by
  have ⟨hn, _⟩ := List.getElem?_eq_some_iff.mp he
  rw [event?, List.reverse_cons, List.getElem?_append_left hn]
  exact he

theorem lt_of_event? (he : event? h n = some e) : n < h.length := by
  have ⟨hn, _⟩ := List.getElem?_eq_some_iff.mp he
  simpa using hn

end History

-- The handle that an answer gives out.
def given (time : Nat) : Except Failure (Option PendingLocate) → List Handle
  | .ok (some p) => [.pending time p]
  | _            => []

-- One step of the session, or of somebody who has a handle, at a time. A token can still be
-- cancelled when its handle is gone.
inductive Step (x : SharedSession σ) (time : Nat) : Event → SharedSession σ → Prop where
  | load (t : Text) :
    Step x time (.loaded (x.session.load t).1) ⟨(x.session.load t).2, x.handles⟩
  | loadFile (fs : Files) (file : FilePath) :
    Step x time (.loaded (x.session.loadFile fs file).1)
      ⟨(x.session.loadFile fs file).2, x.handles⟩
  | begin (id : Nat) :
    Step x time (.began id (x.session.beginLocate id).1)
      ⟨(x.session.beginLocate id).2, given time (x.session.beginLocate id).1 ++ x.handles⟩
  | run {l m : List Handle} {n : Nat} {p : PendingLocate} (fs : Files) :
    x.handles = l ++ .pending n p :: m →
    Step x time (.ran ⟨n, p.id, p.token, p.generation⟩)
      ⟨(x.session.run fs p).2, l ++ .completed n (x.session.run fs p).1 :: m⟩
  | finish {l m : List Handle} {n : Nat} {d : CompletedLocate} :
    x.handles = l ++ .completed n d :: m →
    Step x time (.finished ⟨n, d.id, d.token, d.generation⟩ (x.session.finish d).1)
      ⟨(x.session.finish d).2, l ++ m⟩
  | drop {l m : List Handle} {a : Handle} :
    x.handles = l ++ a :: m →
    Step x time (.dropped a.ticket) ⟨x.session.release a.ticket.token, l ++ m⟩
  | cancel {token : CancellationToken} :
    token.number < x.session.tokens.issued →
    Step x time (.cancelled token) ⟨x.session.cancel token, x.handles⟩
  | analyze (id : Nat) :
    Step x time (.analyzed id) ⟨(x.session.analyze id).2, x.handles⟩
  | locate (fs : Files) (id : Nat) :
    Step x time (.located id) ⟨(x.session.locate fs id).2, x.handles⟩
  | callers (fs : Files) (id : Nat) :
    Step x time (.listed id) ⟨(x.session.callers fs id).2, x.handles⟩
  | expand (fs : Files) (id : Nat) (way : List Nat) :
    Step x time (.expanded id way) ⟨(x.session.expand fs id way).2, x.handles⟩

-- What can become of a new session, with its history.
inductive Reachable : History → SharedSession σ → Prop where
  | new (root : FilePath) (settings : Settings) (advisers : Advisers σ) (memory : σ) :
    Reachable [] ⟨.new root settings advisers memory, []⟩
  | step {h : History} {x y : SharedSession σ} {e : Event} :
    Reachable h x → Step x h.length e y → Reachable (e :: h) y

end SharedSession

end LogOrigin
