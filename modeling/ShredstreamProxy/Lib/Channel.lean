import Mathlib

/-!
# Bounded channels

Two channels with different answers to a full buffer.  A broadcast channel keeps the newest
messages for every receiver: a receiver is a position in the sequence of all messages, and is told
so when messages it had not read are gone.  A queue has one receiver; it takes a message only while
it has room, and none once its receiver is gone.

Main results:

- Theorem {lit}`Broadcast.recv_eq_message_iff`: which message a receiver gets.
- Theorem {lit}`Broadcast.recv_eq_lagged_iff`: when a receiver has lost messages.
- Theorem {lit}`Broadcast.span_succ`: what a receiver has read, one message later.
- Theorem {lit}`Broadcast.span_prefix`: what a receiver has read is a prefix of what was sent since
  it subscribed.
-/

namespace Channel

variable {α : Type*}

/-! ## Broadcast channels -/

/-- A broadcast channel: the number of messages it keeps, all messages sent so far, and whether it
still has a sender. -/
structure Broadcast (α : Type*) where
  capacity : Nat
  sent : List α
  isOpen : Bool

/-- What a receiver finds. -/
inductive Recv (α : Type*) where
  | message (a : α)
  /-- Messages it had not read are gone. -/
  | lagged
  /-- It has read everything and no sender is left. -/
  | closed
  /-- It has read everything and has to wait. -/
  | empty

namespace Broadcast

variable {ch : Broadcast α} {a : α} {since next : Nat}

def send (ch : Broadcast α) (a : α) : Broadcast α :=
  { ch with sent := ch.sent ++ [a] }

/-- The oldest unread message of a receiver that has read everything before position `next`. -/
def recv (ch : Broadcast α) (next : Nat) : Recv α :=
  match ch.sent[next]? with
  | some a => if ch.capacity < ch.sent.length - next then .lagged else .message a
  | none => if ch.isOpen then .empty else .closed

/-- A receiver gets the message at its position when this message is sent and not yet dropped. -/
theorem recv_eq_message_iff : ch.recv next = .message a ↔
    ch.sent[next]? = some a ∧ ch.sent.length - next ≤ ch.capacity := by
  unfold recv
  cases h : ch.sent[next]? with
  | none => cases ch.isOpen <;> simp
  | some b =>
      by_cases hlag : ch.capacity < ch.sent.length - next
      · simp only [if_pos hlag, reduceCtorEq, false_iff, not_and, not_le]
        exact fun _ => hlag
      · simp [hlag, Nat.le_of_not_lt hlag]

/-- A receiver lags exactly when more messages wait for it than the channel keeps. -/
theorem recv_eq_lagged_iff : ch.recv next = .lagged ↔
    ch.capacity < ch.sent.length - next := by
  unfold recv
  cases h : ch.sent[next]? with
  | none =>
      have hall := List.getElem?_eq_none_iff.mp h
      have hnone : ¬ ch.capacity < ch.sent.length - next := by omega
      cases ch.isOpen <;> simp [hnone]
  | some b =>
      by_cases hlag : ch.capacity < ch.sent.length - next
      · simp [hlag]
      · simp [hlag]

/-- A receiver sees the end of the channel only after the last sender is gone. -/
theorem isOpen_of_recv_closed (h : ch.recv next = .closed) : ch.isOpen = false := by
  unfold recv at h
  split at h
  · split at h <;> contradiction
  · split at h
    · contradiction
    · rename_i hopen
      simpa using hopen

/-- The messages from position `since` up to position `next`. -/
def span (ch : Broadcast α) (since next : Nat) : List α :=
  (ch.sent.drop since).take (next - since)

theorem span_self (ch : Broadcast α) (since : Nat) : ch.span since since = [] := by
  simp [span]

/-- One more position adds the message sent there. -/
theorem span_succ (hle : since ≤ next) (h : ch.sent[next]? = some a) :
    ch.span since (next + 1) = ch.span since next ++ [a] := by
  have hcell : (ch.sent.drop since)[next - since]? = some a := by
    rw [List.getElem?_drop, Nat.add_sub_cancel' hle]
    exact h
  unfold span
  rw [Nat.succ_sub hle, List.take_add_one, hcell]
  rfl

/-- A stretch is a prefix of everything sent since its start. -/
theorem span_prefix (ch : Broadcast α) (since next : Nat) :
    ch.span since next <+: ch.sent.drop since :=
  List.take_prefix _ _

/-- What was read stays what it is when more is sent. -/
theorem span_send (hle : next ≤ ch.sent.length) :
    (ch.send a).span since next = ch.span since next := by
  unfold span send
  rw [List.drop_append, List.take_append]
  have hnone : next - since - (ch.sent.drop since).length = 0 := by
    rw [List.length_drop]
    omega
  rw [hnone, List.take_zero, List.append_nil]

/-- Sending only appends to what was sent since any position. -/
theorem drop_send_prefix (ch : Broadcast α) (a : α) (since : Nat) :
    ch.sent.drop since <+: (ch.send a).sent.drop since := by
  unfold send
  rw [List.drop_append]
  exact List.prefix_append _ _

end Broadcast

/-! ## Queues -/

/-- A bounded first-in first-out queue, and whether its receiver is still there. -/
structure Queue (α : Type*) where
  capacity : Nat
  items : List α
  connected : Bool

/-- What a sender finds. -/
inductive Sent (α : Type*) where
  | accepted (q : Queue α)
  /-- There is no room, so the sender has to wait. -/
  | full
  /-- The receiver is gone. -/
  | disconnected

namespace Queue

def new (capacity : Nat) : Queue α :=
  ⟨capacity, [], true⟩

def send (q : Queue α) (a : α) : Sent α :=
  if q.connected then
    if q.items.length < q.capacity then .accepted { q with items := q.items ++ [a] } else .full
  else .disconnected

/-- A queue accepts what is sent exactly when its receiver is there and it has room. -/
theorem send_eq_accepted_iff {q q' : Queue α} {a : α} : q.send a = .accepted q' ↔
    q.connected = true ∧ q.items.length < q.capacity ∧ q' = { q with items := q.items ++ [a] } := by
  unfold send
  cases hconn : q.connected with
  | false => simp
  | true =>
      by_cases hroom : q.items.length < q.capacity
      · simp [hroom, eq_comm]
      · simp [hroom]

/-- A send finds the queue disconnected exactly when its receiver is gone. -/
theorem send_eq_disconnected_iff {q : Queue α} {a : α} :
    q.send a = .disconnected ↔ q.connected = false := by
  unfold send
  cases hconn : q.connected with
  | false => simp
  | true =>
      by_cases hroom : q.items.length < q.capacity
      · simp [hroom]
      · simp [hroom]

/-- The receiver goes away, and with it what it has not read. -/
def disconnect (q : Queue α) : Queue α :=
  { q with items := [], connected := false }

end Queue

end Channel
