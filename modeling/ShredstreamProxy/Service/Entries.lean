import ShredstreamProxy.Lib.Channel
import ShredstreamProxy.Lib.Family
import ShredstreamProxy.Deshred.Reconstruct

/-!
# The entries service

The reconstructor thread hands the payloads that each call pushed to a broadcast channel, one after
the other.  Every subscription has a task of its own, which takes entries from the broadcast channel
and puts them into the bounded queue of its client.  This module embeds both sides and the clients
as one state machine; a run is any sequence of their steps.

Main definitions:

- {lit}`Subscription`: the forwarding task of one client with its two channels.
- {lit}`EntryService`: the reconstructor, the broadcast channel and all subscriptions.
- {lit}`EntryService.step`: one step of any of them.
- {lit}`EntryService.run`: the state after some steps.
- Theorem {lit}`EntryService.subscription_of_step`: what a step can do to a subscription.
-/

namespace ShredstreamProxy

open Channel

/-- An entry as it is sent to clients. -/
structure PbEntry where
  slot : Slot
  entries : Bytes
deriving DecidableEq

/-- The message for one pushed item. -/
def Deshredded.toPbEntry (d : Deshredded) : PbEntry :=
  ⟨d.slot, d.payload⟩

/-- Room in the queue of a client. -/
def clientQueueCapacity : Nat := 100

/-- Where a forwarding task stands. -/
inductive ForwardTask where
  /-- Waiting for the broadcast channel. -/
  | receiving
  /-- Waiting for room in the queue of its client. -/
  | sending (entry : PbEntry)
  /-- Out of its loop. -/
  | finished
deriving DecidableEq

/-- The entry that a task has taken and not yet passed on. -/
def ForwardTask.entry : ForwardTask → List PbEntry
  | .sending entry => [entry]
  | _ => []

/-- The task of one subscription, with the position of its receiver, the queue to its client, and
what the client has read. -/
structure Subscription where
  entryReceiver : Nat
  task : ForwardTask
  tx : Queue PbEntry
  received : List PbEntry

namespace Subscription

/-- A subscription sees what is sent from now on. -/
def new (entrySender : Broadcast PbEntry) : Subscription where
  entryReceiver := entrySender.sent.length
  task := .receiving
  tx := Queue.new clientQueueCapacity
  received := []

/-- The task takes an entry.  Any error ends its loop. -/
def recv (entrySender : Broadcast PbEntry) (sub : Subscription) : Subscription :=
  match sub.task with
  | .receiving =>
      match entrySender.recv sub.entryReceiver with
      | .message entry =>
          { sub with entryReceiver := sub.entryReceiver + 1, task := .sending entry }
      | .lagged => { sub with task := .finished }
      | .closed => { sub with task := .finished }
      | .empty => sub
  | _ => sub

/-- The task passes its entry on.  It leaves its loop if the client is gone. -/
def send (sub : Subscription) : Subscription :=
  match sub.task with
  | .sending entry =>
      match sub.tx.send entry with
      | .accepted tx => { sub with task := .receiving, tx }
      | .full => sub
      | .disconnected => { sub with task := .finished }
  | _ => sub

/-- The client reads from its queue. -/
def read (sub : Subscription) : Subscription :=
  match sub.tx.items with
  | entry :: items =>
      { sub with tx := { sub.tx with items }, received := sub.received ++ [entry] }
  | [] => sub

/-- The client goes away. -/
def disconnect (sub : Subscription) : Subscription :=
  { sub with tx := sub.tx.disconnect }

end Subscription

/-- The reconstructor with its state and what it still has to send, the broadcast channel, and the
subscriptions in the order in which they were made. -/
structure EntryService where
  proxy : ProxyState
  deshreddedEntries : List PbEntry
  entrySender : Broadcast PbEntry
  subscriptions : List Subscription

/-- One step of the reconstructor, of a forwarding task or of a client. -/
inductive EntryAction where
  /-- The reconstructor processes a batch of packets. -/
  | reconstruct (c : Call)
  /-- The reconstructor sends the next entry of the batch. -/
  | drain
  /-- The last sender is dropped. -/
  | dropSender
  /-- A client subscribes. -/
  | subscribeEntries
  /-- The task of a subscription takes an entry. -/
  | recv (i : Nat)
  /-- The task of a subscription passes its entry on. -/
  | send (i : Nat)
  /-- A client reads. -/
  | read (i : Nat)
  /-- A client goes away. -/
  | disconnect (i : Nat)

namespace EntryService

def initial (capacity : Nat) : EntryService where
  proxy := ProxyState.initial
  deshreddedEntries := []
  entrySender := ⟨capacity, [], true⟩
  subscriptions := []

/-- Change one subscription. -/
def modify (service : EntryService) (i : Nat) (f : Subscription → Subscription) : EntryService :=
  { service with subscriptions := service.subscriptions.modify i f }

/-- The reconstructor processes a batch of packets.  It holds the sender, and has drained the batch
before. -/
def reconstruct (ledger : Ledger) (service : EntryService) (c : Call) : EntryService :=
  match service.entrySender.isOpen, service.deshreddedEntries,
    reconstructShreds ledger c service.proxy with
  | true, [], .ok r =>
      { service with
        proxy := r.state
        deshreddedEntries := r.deshreddedEntries.map Deshredded.toPbEntry }
  | _, _, _ => service

/-- The reconstructor sends the next entry of the batch. -/
def drain (service : EntryService) : EntryService :=
  match service.deshreddedEntries with
  | entry :: rest =>
      { service with deshreddedEntries := rest, entrySender := service.entrySender.send entry }
  | [] => service

/-- The last sender is dropped, which is not in the middle of a batch. -/
def dropSender (service : EntryService) : EntryService :=
  match service.deshreddedEntries with
  | [] => { service with entrySender := { service.entrySender with isOpen := false } }
  | _ :: _ => service

/-- A client subscribes, as long as the service has its sender. -/
def subscribeEntries (service : EntryService) : EntryService :=
  if service.entrySender.isOpen then
    { service with
      subscriptions := service.subscriptions ++ [Subscription.new service.entrySender] }
  else service

/-- One step.  A step that has to wait changes nothing. -/
def step (ledger : Ledger) (service : EntryService) : EntryAction → EntryService
  | .reconstruct c => service.reconstruct ledger c
  | .drain => service.drain
  | .dropSender => service.dropSender
  | .subscribeEntries => service.subscribeEntries
  | .recv i => service.modify i (Subscription.recv service.entrySender)
  | .send i => service.modify i Subscription.send
  | .read i => service.modify i Subscription.read
  | .disconnect i => service.modify i Subscription.disconnect

/-- The state after some steps, for a broadcast channel of the given capacity. -/
def run (ledger : Ledger) (capacity : Nat) (actions : List EntryAction) : EntryService :=
  actions.foldl (step ledger) (initial capacity)

theorem run_concat (ledger : Ledger) (capacity : Nat) (actions : List EntryAction)
    (a : EntryAction) :
    run ledger capacity (actions ++ [a]) = step ledger (run ledger capacity actions) a := by
  simp [run]

end EntryService

/-! ## What a step can do -/

/-- What a step of the system can do to subscription `i` and the broadcast channel. -/
inductive Subscription.Step (i : Nat) : EntryAction → Broadcast PbEntry → Subscription →
    Broadcast PbEntry → Subscription → Prop
  /-- The step is about something else. -/
  | other {a ch sub} : Step i a ch sub ch sub
  | drain {ch sub} (entry : PbEntry) : Step i .drain ch sub (ch.send entry) sub
  | dropSender {ch sub} : Step i .dropSender ch sub { ch with isOpen := false } sub
  | recv {ch sub} : Step i (.recv i) ch sub ch (sub.recv ch)
  | send {ch sub} : Step i (.send i) ch sub ch sub.send
  | read {ch sub} : Step i (.read i) ch sub ch sub.read
  | disconnect {ch sub} : Step i (.disconnect i) ch sub ch sub.disconnect

namespace EntryService

variable {ledger : Ledger} {service : EntryService} {i : Nat} {sub : Subscription}

/-- Modifying one subscription leaves the others alone. -/
theorem getElem?_modify {j : Nat} {f : Subscription → Subscription}
    (h : (service.modify j f).subscriptions[i]? = some sub) :
    ∃ old, service.subscriptions[i]? = some old ∧ sub = if j = i then f old else old := by
  simp only [modify, List.getElem?_modify, Option.map_eq_map, Option.map_eq_some_iff] at h
  rcases h with ⟨old, hold, rfl⟩
  refine ⟨old, hold, ?_⟩
  split <;> rfl

/-- A subscription after a step was there before and took that step, or it is the one that the step
made. -/
theorem subscription_of_step {a : EntryAction}
    (h : (step ledger service a).subscriptions[i]? = some sub) :
    (∃ old, service.subscriptions[i]? = some old ∧
      Subscription.Step i a service.entrySender old (step ledger service a).entrySender sub) ∨
    (a = .subscribeEntries ∧ i = service.subscriptions.length ∧
      (step ledger service a).entrySender = service.entrySender ∧
      sub = Subscription.new service.entrySender) := by
  -- a step of the task or the client of subscription `j`
  have hmodify : ∀ j f, (service.modify j f).subscriptions[i]? = some sub →
      (∀ old, Subscription.Step j a service.entrySender old service.entrySender (f old)) →
      ∃ old, service.subscriptions[i]? = some old ∧
        Subscription.Step i a service.entrySender old service.entrySender sub := by
    intro j f h hstep
    rcases getElem?_modify h with ⟨old, hold, rfl⟩
    refine ⟨old, hold, ?_⟩
    split
    · rename_i hj
      subst hj
      exact hstep old
    · exact .other
  cases a with
  | reconstruct c =>
      simp only [step, reconstruct] at h ⊢
      split at h
      · exact Or.inl ⟨sub, h, .other⟩
      · exact Or.inl ⟨sub, h, .other⟩
  | drain =>
      simp only [step, drain] at h ⊢
      split at h
      · exact Or.inl ⟨sub, h, .drain _⟩
      · exact Or.inl ⟨sub, h, .other⟩
  | dropSender =>
      simp only [step, dropSender] at h ⊢
      split at h
      · exact Or.inl ⟨sub, h, .dropSender⟩
      · exact Or.inl ⟨sub, h, .other⟩
  | subscribeEntries =>
      have hsame : (step ledger service .subscribeEntries).entrySender = service.entrySender := by
        simp only [step, subscribeEntries]
        split <;> rfl
      rw [hsame]
      simp only [step, subscribeEntries] at h
      split at h
      · rcases Family.getElem?_concat_cases h with hold | ⟨hi, hnew⟩
        · exact Or.inl ⟨sub, hold, .other⟩
        · exact Or.inr ⟨rfl, hi, rfl, hnew⟩
      · exact Or.inl ⟨sub, h, .other⟩
  | recv j => exact Or.inl (hmodify j _ h fun _ => .recv)
  | send j => exact Or.inl (hmodify j _ h fun _ => .send)
  | read j => exact Or.inl (hmodify j _ h fun _ => .read)
  | disconnect j => exact Or.inl (hmodify j _ h fun _ => .disconnect)

end EntryService

end ShredstreamProxy
