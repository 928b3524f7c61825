import ShredstreamProxy.Proxy.Batches
import ShredstreamProxy.Service.Delivery

/-!
# From the forwarders to the clients

Forwarders offer the batches of their calls to the reconstructor through a bounded queue and drop
what finds no room.  The reconstructor takes them one by one, and what it decodes goes through the
broadcast channel and the tasks of the service to the clients.  Across every interleaving of all
these threads the reconstructor is the sequential program of its own module, run on the batches that
it took.

Main results:

- Theorem {lit}`reconstructor_takes_in_order`: what was offered, dropped and taken.
- Theorem {lit}`broadcast_is_sequential`: what is broadcast is what the sequential reconstructor
  pushes for the batches that were taken.
- Theorem {lit}`client_receives_pushed`: what a client gets of it.
-/

namespace ShredstreamProxy

open Channel

namespace Proxy

variable {cfg : ProxyConfig} {p p' : Proxy} {events past : List ProxyEvent} {e : ProxyEvent}
  {i : Nat} {t : ForwarderThread} {packetBatch : PacketBatch}

/-! ## The queue of the reconstructor -/

/-- The batches that the reconstructor had room for. -/
def accepted (p : Proxy) : List PacketBatch :=
  (p.offers.filter fun o => o.accepted).map Offer.packetBatch

/-- The batches that forwarder `i` has offered. -/
def offersBy (p : Proxy) (i : Nat) : List PacketBatch :=
  (p.offers.filter fun o => o.forwarder = i).map Offer.packetBatch

/-- The batches that the reconstructor has taken. -/
def taken (events : List ProxyEvent) : List (IterOrder × PacketBatch) :=
  events.filterMap ProxyEvent.taken

theorem taken_concat (past : List ProxyEvent) (e : ProxyEvent) :
    taken (past ++ [e]) = taken past ++ e.taken.toList := by
  unfold taken
  cases h : e.taken <;> simp [h]

/-- An offer is accepted if the reconstructor is there and has room, and is dropped otherwise. -/
theorem trySend_cases (p : Proxy) (i : Nat) (packetBatch : PacketBatch) :
    (p.trySend i packetBatch =
        { p with
          reconstructRx :=
            { p.reconstructRx with items := p.reconstructRx.items ++ [packetBatch] }
          offers := p.offers ++ [⟨i, packetBatch, p.reconstructRx.items.length, true⟩] } ∧
      p.reconstructRx.connected = true ∧
      p.reconstructRx.items.length < p.reconstructRx.capacity) ∨
    (p.trySend i packetBatch =
        { p with offers := p.offers ++ [⟨i, packetBatch, p.reconstructRx.items.length, false⟩] } ∧
      (p.reconstructRx.connected = false ∨
        p.reconstructRx.capacity ≤ p.reconstructRx.items.length)) := by
  unfold trySend Queue.send
  cases hconn : p.reconstructRx.connected with
  | false => exact Or.inr ⟨rfl, Or.inl rfl⟩
  | true =>
      by_cases hroom : p.reconstructRx.items.length < p.reconstructRx.capacity
      · refine Or.inl ⟨?_, rfl, hroom⟩
        simp [hroom, hconn]
      · refine Or.inr ⟨?_, Or.inr (Nat.le_of_not_lt hroom)⟩
        simp [hroom]

/-- The queue against what was offered and taken.  Batches are dropped only while as many wait as
there is room for. -/
structure QueueInv (events : List ProxyEvent) (p : Proxy) : Prop where
  fifo : ∃ lost, p.accepted = (taken events).map Prod.snd ++ p.reconstructRx.items ++ lost ∧
    (p.reconstructRx.connected = true → lost = [])
  capacity : p.reconstructRx.capacity = reconstructCapacity
  length_le : p.reconstructRx.items.length ≤ reconstructCapacity
  dropped : ∀ o ∈ p.offers, o.accepted = false →
    o.waiting = reconstructCapacity ∨ p.reconstructRx.connected = false

namespace QueueInv

theorem initial (cfg : ProxyConfig) : QueueInv [] (Proxy.initial cfg) := by
  unfold Proxy.initial
  cases cfg.shouldReconstructShreds with
  | true | false =>
      exact ⟨⟨[], rfl, fun _ => rfl⟩, rfl, Nat.zero_le _, fun _ h => absurd h List.not_mem_nil⟩

/-- A step that neither offers nor takes a batch. -/
theorem frame (h : QueueInv past p) (hqueue : p'.reconstructRx = p.reconstructRx)
    (hoffers : p'.offers = p.offers) (htaken : e.taken = none) : QueueInv (past ++ [e]) p' where
  fifo := by
    rw [taken_concat, htaken, accepted, hoffers, hqueue]
    simpa [accepted] using h.fifo
  capacity := by rw [hqueue, h.capacity]
  length_le := by rw [hqueue]; exact h.length_le
  dropped := by rw [hoffers, hqueue]; exact h.dropped

/-- An offer is accepted or dropped. -/
theorem trySend (h : QueueInv past p) (i : Nat) (packetBatch : PacketBatch) :
    QueueInv past (p.trySend i packetBatch) := by
  rcases h.fifo with ⟨lost, hfifo, hlost⟩
  rcases trySend_cases p i packetBatch with ⟨heq, hconn, hroom⟩ | ⟨heq, hdrop⟩
  · rw [heq]
    refine ⟨⟨[], ?_, fun _ => rfl⟩, h.capacity, ?_, ?_⟩
    · calc
        accepted _ = p.accepted ++ [packetBatch] := by simp [accepted]
        _ = _ := by simp [hfifo, hlost hconn]
    · rw [h.capacity] at hroom
      simpa using hroom
    · intro o ho hdropped
      rcases List.mem_append.mp ho with ho | ho
      · exact h.dropped o ho hdropped
      · rw [List.mem_singleton.mp ho] at hdropped
        contradiction
  · rw [heq]
    refine ⟨⟨lost, by simpa [accepted] using hfifo, hlost⟩, h.capacity, h.length_le, ?_⟩
    intro o ho hdropped
    rcases List.mem_append.mp ho with ho | ho
    · exact h.dropped o ho hdropped
    · rw [List.mem_singleton.mp ho]
      rcases hdrop with hgone | hfull
      · exact Or.inr hgone
      · rw [h.capacity] at hfull
        exact Or.inl (Nat.le_antisymm h.length_le hfull)

/-- Taking a batch keeps the order. -/
theorem recv {order : IterOrder} {items : List PacketBatch} (h : QueueInv past p)
    (hitems : p.reconstructRx.items = packetBatch :: items)
    (hqueue : p'.reconstructRx = { p.reconstructRx with items }) (hoffers : p'.offers = p.offers) :
    QueueInv (past ++ [.reconstructor (.recv order packetBatch)]) p' := by
  rcases h.fifo with ⟨lost, hfifo, hlost⟩
  have hlength := h.length_le
  rw [hitems] at hfifo hlength
  refine ⟨⟨lost, ?_, ?_⟩, ?_, ?_, ?_⟩
  · rw [taken_concat, accepted, hoffers, hqueue]
    simpa [accepted, ProxyEvent.taken] using hfifo
  · rw [hqueue]
    exact hlost
  · rw [hqueue]
    exact h.capacity
  · rw [hqueue]
    exact (Nat.le_succ _).trans hlength
  · rw [hoffers, hqueue]
    exact h.dropped

/-- A reconstructor that stops leaves its batches behind. -/
theorem disconnect (h : QueueInv past p) (hqueue : p'.reconstructRx = p.reconstructRx.disconnect)
    (hoffers : p'.offers = p.offers) (htaken : e.taken = none) : QueueInv (past ++ [e]) p' := by
  rcases h.fifo with ⟨lost, hfifo, _⟩
  refine ⟨⟨p.reconstructRx.items ++ lost, ?_, ?_⟩, ?_, ?_, ?_⟩
  · rw [taken_concat, htaken, accepted, hoffers, hqueue]
    simpa [accepted, Queue.disconnect] using hfifo
  · rw [hqueue]
    exact fun h => absurd h Bool.false_ne_true
  · rw [hqueue]
    exact h.capacity
  · rw [hqueue]
    exact Nat.zero_le _
  · rw [hqueue]
    exact fun _ _ _ => Or.inr rfl

/-- Every step keeps the account of the queue. -/
theorem of_step (h : QueueInv past p) (hstep : Step cfg p e p') : QueueInv (past ++ [e]) p' := by
  cases hstep with
  | control he => exact h.frame rfl rfl (ProxyEvent.taken_of_isControl he)
  | thread hi hstep => exact h.frame rfl rfl (by cases hstep <;> rfl)
  | @op i t f op ops hi hstage =>
      have hexec : QueueInv past (p.exec i op) := by
        cases op with
        | trySend packetBatch =>
            have hsend := h.trySend i packetBatch
            exact ⟨hsend.fifo, hsend.capacity, hsend.length_le, hsend.dropped⟩
        | fetchAdd c n => exact ⟨h.fifo, h.capacity, h.length_le, h.dropped⟩
        | storeStats packet => exact ⟨h.fifo, h.capacity, h.length_le, h.dropped⟩
        | batchSend destination packetsWithDest =>
            exact ⟨h.fifo, h.capacity, h.length_le, h.dropped⟩
      exact hexec.frame rfl rfl rfl
  | publish => exact h.frame rfl rfl rfl
  | accessory => exact h.frame rfl rfl rfl
  | retain => exact h.frame rfl rfl rfl
  | recv _ hitems => exact h.recv hitems rfl rfl
  | stopReconstructor he => exact h.disconnect rfl rfl (by rcases he with rfl | rfl <;> rfl)
  | drain => exact h.frame rfl rfl rfl
  | client he htaken => exact h.frame rfl rfl htaken

/-- Every run keeps the account of the queue. -/
theorem of_run (h : run cfg events = some p) : QueueInv events p :=
  run_induction (QueueInv.initial cfg) (fun _ _ _ _ _ hI hstep => hI.of_step hstep) h

end QueueInv

/-- An operation of a call adds its offer to those of its forwarder. -/
theorem offersBy_exec (p : Proxy) (i j : Nat) (op : ForwardOp) :
    (p.exec j op).offersBy i = p.offersBy i ++ if j = i then op.offer.toList else [] := by
  cases op with
  | trySend packetBatch =>
      simp only [exec, effect, offersBy, ForwardOp.offer]
      rcases trySend_cases p j packetBatch with ⟨heq, _⟩ | ⟨heq, _⟩
      · rw [heq]
        by_cases hij : j = i <;> simp [hij]
      · rw [heq]
        by_cases hij : j = i <;> simp [hij]
  | fetchAdd c n => simp [exec, effect, offersBy, ForwardOp.offer]
  | storeStats packet => simp [exec, effect, offersBy, ForwardOp.offer]
  | batchSend destination packetsWithDest => simp [exec, effect, offersBy, ForwardOp.offer]

/-- The record of the offers is that of the operations. -/
theorem offersBy_eq (h : run cfg events = some p) (i : Nat) :
    p.offersBy i = (p.executedBy i).filterMap ForwardOp.offer := by
  refine run_induction (I := fun _ p =>
    p.offersBy i = (p.executedBy i).filterMap ForwardOp.offer) rfl ?_ h
  intro past p e p' _ hI hstep
  cases hstep with
  | @op j t f op ops hj hstage =>
      change (p.exec j op).offersBy i = ((p.exec j op).executedBy i).filterMap ForwardOp.offer
      rw [offersBy_exec, executedBy_exec, List.filterMap_append, hI]
      by_cases hij : j = i
      · cases hop : op.offer <;> simp [hij, hop]
      · simp [hij]
  | control | thread | publish | accessory | retain | recv | stopReconstructor | drain | client =>
      exact hI

/-- A forwarder offers the batch of every call, once and in its order. -/
theorem offersBy_append_pending (h : run cfg events = some p) (hi : p.forwarders[i]? = some t)
    (hshould : cfg.shouldReconstructShreds = true) :
    p.offersBy i ++ t.pending.filterMap ForwardOp.offer =
      (calls i events).map Forwarding.packetBatch := by
  rw [offersBy_eq h, ← List.filterMap_append, executedBy_append_pending h hi,
    List.filterMap_flatMap, List.map_eq_flatMap]
  apply List.flatMap_congr
  intro f hf
  rw [Forwarding.offers_ops cfg.decode cfg.toSystemTime (fun _ => none)]
  simp [Forwarding.forward, shouldReconstructShreds_of_mem_calls h hf, hshould]

end Proxy

open Proxy

/-- In every interleaving, each forwarder offers the batches of its calls in their order, the
reconstructor takes the accepted ones in the order in which they were accepted, at most 1024 of them
wait, and as long as the reconstructor is there every dropped batch found 1024 others waiting. -/
theorem reconstructor_takes_in_order (cfg : ProxyConfig) (events : List ProxyEvent) (p : Proxy)
    (h : Proxy.run cfg events = some p) (hshould : cfg.shouldReconstructShreds = true) :
    (∀ i t, p.forwarders[i]? = some t →
      p.offersBy i ++ t.pending.filterMap ForwardOp.offer =
        (calls i events).map Forwarding.packetBatch) ∧
    (∃ lost, p.accepted = (taken events).map Prod.snd ++ p.reconstructRx.items ++ lost ∧
      (p.reconstructRx.connected = true → lost = [])) ∧
    p.reconstructRx.items.length ≤ reconstructCapacity ∧
    ∀ o ∈ p.offers, o.accepted = false →
      o.waiting = reconstructCapacity ∨ p.reconstructRx.connected = false := by
  have hqueue := QueueInv.of_run h
  exact ⟨fun i t hi => offersBy_append_pending h hi hshould, hqueue.fifo, hqueue.length_le,
    hqueue.dropped⟩

/-- A client subscribes, a batch is forwarded, and the reconstructor takes it. -/
def Sample.takeEvents : List ProxyEvent :=
  .subscribeEntries :: forwardEvents ++
    [.reconstructor .check, .reconstructor (.recv IterOrder.insertion [sourcedPacket])]

/-- A batch that was offered and taken. -/
theorem reconstructor_takes_in_order_sample :
    ∃ p, Proxy.run Sample.proxyConfig Sample.takeEvents = some p ∧
      taken Sample.takeEvents = [(IterOrder.insertion, [Sample.sourcedPacket])] ∧
      (∀ i t, p.forwarders[i]? = some t →
        p.offersBy i ++ t.pending.filterMap ForwardOp.offer =
          (calls i Sample.takeEvents).map Forwarding.packetBatch) ∧
      (∃ lost, p.accepted =
          (taken Sample.takeEvents).map Prod.snd ++ p.reconstructRx.items ++ lost ∧
        (p.reconstructRx.connected = true → lost = [])) ∧
      p.reconstructRx.items.length ≤ reconstructCapacity ∧
      ∀ o ∈ p.offers, o.accepted = false →
        o.waiting = reconstructCapacity ∨ p.reconstructRx.connected = false :=
  ⟨_, rfl, rfl,
    reconstructor_takes_in_order Sample.proxyConfig Sample.takeEvents _ rfl rfl⟩

/-! ## The reconstructor as a sequential program -/

/-- Clients do not change what the reconstructor works with. -/
theorem EntryService.step_of_isClient {ledger : Ledger} {a : EntryAction} (h : a.isClient = true)
    (service : EntryService) :
    (service.step ledger a).proxy = service.proxy ∧
      (service.step ledger a).deshreddedEntries = service.deshreddedEntries ∧
      (service.step ledger a).entrySender = service.entrySender := by
  cases a with
  | subscribeEntries =>
      simp only [step, subscribeEntries]
      split <;> exact ⟨rfl, rfl, rfl⟩
  | recv i | send i | read i | disconnect i => exact ⟨rfl, rfl, rfl⟩
  | reconstruct | drain | dropSender => contradiction

namespace Proxy

variable {cfg : ProxyConfig} {p p' : Proxy} {events past : List ProxyEvent} {e : ProxyEvent}

/-- The entries service in an interleaving of all threads is the entries service alone. -/
theorem service_eq (h : run cfg events = some p) :
    p.service = EntryService.run cfg.ledger cfg.entryCapacity
      (events.filterMap ProxyEvent.action) := by
  refine run_induction (I := fun events p => p.service = EntryService.run cfg.ledger
    cfg.entryCapacity (events.filterMap ProxyEvent.action)) rfl ?_ h
  intro past p e p' _ hI hstep
  have hnone : e.action = none → p'.service = p.service →
      p'.service = EntryService.run cfg.ledger cfg.entryCapacity
        ((past ++ [e]).filterMap ProxyEvent.action) := by
    intro haction hsame
    rw [hsame, hI]
    simp [haction]
  have hsome : ∀ a, e.action = some a → p'.service = p.service.step cfg.ledger a →
      p'.service = EntryService.run cfg.ledger cfg.entryCapacity
        ((past ++ [e]).filterMap ProxyEvent.action) := by
    intro a haction hservice
    have hlast : (past ++ [e]).filterMap ProxyEvent.action =
        past.filterMap ProxyEvent.action ++ [a] := by
      simp [haction]
    rw [hlast, EntryService.run_concat, hservice, hI]
  cases hstep with
  | control he => exact hnone (ProxyEvent.action_of_isControl he) rfl
  | thread hi hstep => exact hnone (by cases hstep <;> rfl) rfl
  | op =>
      refine hnone rfl ?_
      rw [exec_eq]
      rfl
  | publish => exact hnone rfl rfl
  | accessory => exact hnone rfl rfl
  | retain => exact hnone rfl rfl
  | recv => exact hsome _ rfl rfl
  | stopReconstructor he => exact hnone (by rcases he with rfl | rfl <;> rfl) rfl
  | drain => exact hsome _ rfl rfl
  | client he => exact hsome _ he rfl

/-- The calls that the reconstructor has made. -/
def takenCalls (events : List ProxyEvent) : List Call :=
  (taken events).map fun x => ⟨x.1, x.2.map SourcedPacket.toPacket⟩

/-- An event that takes no batch makes no call. -/
theorem takenCalls_of_none (h : e.taken = none) : takenCalls (past ++ [e]) = takenCalls past := by
  simp [takenCalls, taken_concat, h]

/-- The reconstructor has made its calls one after the other, and what they pushed is sent or still
to be sent. -/
structure EntriesInv (cfg : ProxyConfig) (events : List ProxyEvent) (p : Proxy) : Prop where
  isOpen : p.service.entrySender.isOpen = true
  drained : p.reconstructor = .draining ∨ p.service.deshreddedEntries = []
  sequential : ∃ history, runCalls cfg.ledger (takenCalls events) = .ok history ∧
    p.service.proxy = history.state ∧
    p.service.entrySender.sent ++ p.service.deshreddedEntries =
      history.pushed.map Deshredded.toPbEntry

namespace EntriesInv

theorem initial (cfg : ProxyConfig) : EntriesInv cfg [] (Proxy.initial cfg) where
  isOpen := rfl
  drained := Or.inr rfl
  sequential := ⟨History.initial, rfl, rfl, rfl⟩

/-- A step that leaves the work of the reconstructor alone. -/
theorem frame (h : EntriesInv cfg past p) (htaken : e.taken = none)
    (hproxy : p'.service.proxy = p.service.proxy)
    (hentries : p'.service.deshreddedEntries = p.service.deshreddedEntries)
    (hsender : p'.service.entrySender = p.service.entrySender)
    (hdrained : p.reconstructor = .draining →
      p'.reconstructor = .draining ∨ p.service.deshreddedEntries = []) :
    EntriesInv cfg (past ++ [e]) p' where
  isOpen := by rw [hsender, h.isOpen]
  drained := by
    rw [hentries]
    exact h.drained.elim hdrained Or.inr
  sequential := by
    rw [takenCalls_of_none htaken, hproxy, hentries, hsender]
    exact h.sequential

/-- A call pushes its entries. -/
theorem recv {order : IterOrder} {packetBatch : PacketBatch} (h : EntriesInv cfg past p)
    (hstage : p.reconstructor = .receiving)
    (hservice : p'.service = p.service.step cfg.ledger
      (.reconstruct ⟨order, packetBatch.map SourcedPacket.toPacket⟩))
    (hstage' : p'.reconstructor = .draining) :
    EntriesInv cfg (past ++ [.reconstructor (.recv order packetBatch)]) p' := by
  let call : Call := ⟨order, packetBatch.map SourcedPacket.toPacket⟩
  have hempty : p.service.deshreddedEntries = [] := h.drained.resolve_left (by simp [hstage])
  rcases h.sequential with ⟨history, hcalls, hproxy, hsent⟩
  have htaken : takenCalls (past ++ [.reconstructor (.recv order packetBatch)]) =
      takenCalls past ++ [call] := by
    simp [takenCalls, taken_concat, ProxyEvent.taken, call]
  rcases runCalls_sim cfg.ledger (takenCalls past ++ [call]) with ⟨history', hcalls', _⟩
  rcases runCalls_concat.mp hcalls' with ⟨history₀, r, hcalls₀, hr, rfl⟩
  obtain rfl := Except.ok.inj (hcalls.symm.trans hcalls₀)
  have hstep : p.service.step cfg.ledger (.reconstruct call) =
      { p.service with
        proxy := r.state
        deshreddedEntries := r.deshreddedEntries.map Deshredded.toPbEntry } := by
    simp [EntryService.step, EntryService.reconstruct, h.isOpen, hempty, hproxy, hr]
  rw [hempty, List.append_nil] at hsent
  refine ⟨?_, Or.inl hstage', ?_⟩
  · rw [hservice, hstep]
    exact h.isOpen
  · rw [htaken, hservice, hstep]
    exact ⟨_, hcalls', rfl, by simp [hsent, History.pushed]⟩

/-- An entry is sent. -/
theorem drain (h : EntriesInv cfg past p)
    (hservice : p'.service = p.service.step cfg.ledger .drain)
    (hstage : p'.reconstructor = .draining) :
    EntriesInv cfg (past ++ [.reconstructor .drain]) p' := by
  rcases h.sequential with ⟨history, hcalls, hproxy, hsent⟩
  have htaken : takenCalls (past ++ [.reconstructor .drain]) = takenCalls past :=
    takenCalls_of_none rfl
  cases hentries : p.service.deshreddedEntries with
  | nil =>
      have hsame : p'.service = p.service := by
        rw [hservice]
        simp [EntryService.step, EntryService.drain, hentries]
      refine ⟨by rw [hsame, h.isOpen], Or.inl hstage, ?_⟩
      rw [htaken, hsame]
      exact ⟨history, hcalls, hproxy, hsent⟩
  | cons entry rest =>
      have hstep : p'.service =
          { p.service with
            deshreddedEntries := rest
            entrySender := p.service.entrySender.send entry } := by
        rw [hservice]
        simp [EntryService.step, EntryService.drain, hentries]
      rw [hentries] at hsent
      refine ⟨by rw [hstep]; exact h.isOpen, Or.inl hstage, ?_⟩
      rw [htaken, hstep]
      exact ⟨history, hcalls, hproxy, by simpa [Broadcast.send] using hsent⟩

/-- Every step keeps the account of the service. -/
theorem of_step (h : EntriesInv cfg past p) (hstep : Step cfg p e p') :
    EntriesInv cfg (past ++ [e]) p' := by
  cases hstep with
  | control he _ _ _ _ _ _ _ hdrained =>
      exact h.frame (ProxyEvent.taken_of_isControl he) rfl rfl rfl hdrained
  | thread hi hstep => exact h.frame (by cases hstep <;> rfl) rfl rfl rfl Or.inl
  | op => refine h.frame rfl ?_ ?_ ?_ ?_ <;> rw [exec_eq] <;> first | rfl | exact Or.inl
  | publish => exact h.frame rfl rfl rfl rfl Or.inl
  | accessory => exact h.frame rfl rfl rfl rfl Or.inl
  | retain => exact h.frame rfl rfl rfl rfl Or.inl
  | recv hstage => exact h.recv hstage rfl rfl
  | stopReconstructor he hstage =>
      exact h.frame (by rcases he with rfl | rfl <;> rfl) rfl rfl rfl fun hd => absurd hd hstage
  | drain hstage => exact h.drain rfl hstage
  | client _ htaken ha =>
      rcases EntryService.step_of_isClient ha p.service with ⟨hproxy, hentries, hsender⟩
      exact h.frame htaken hproxy hentries hsender Or.inl

/-- Every run keeps the account of the service. -/
theorem of_run (h : run cfg events = some p) : EntriesInv cfg events p :=
  run_induction (EntriesInv.initial cfg) (fun _ _ _ _ _ hI hstep => hI.of_step hstep) h

end EntriesInv

end Proxy

/-- In every interleaving, what is broadcast, followed by what the reconstructor still has to send,
is what the sequential reconstructor pushes when it is run on the batches that were taken. -/
theorem broadcast_is_sequential (cfg : ProxyConfig) (events : List ProxyEvent) (p : Proxy)
    (h : Proxy.run cfg events = some p) :
    ∃ history, runCalls cfg.ledger (takenCalls events) = .ok history ∧
      p.service.proxy = history.state ∧
      p.service.entrySender.sent ++ p.service.deshreddedEntries =
        history.pushed.map Deshredded.toPbEntry :=
  (EntriesInv.of_run h).sequential

/-- One client subscribes, and then one batch is processed. -/
theorem EntryService.run_first {ledger : Ledger} (capacity : Nat) {c : Call} {r : CallResult}
    (hr : reconstructShreds ledger c ProxyState.initial = .ok r) :
    EntryService.run ledger capacity [.subscribeEntries, .reconstruct c] =
      { proxy := r.state
        deshreddedEntries := r.deshreddedEntries.map Deshredded.toPbEntry
        entrySender := ⟨capacity, [], true⟩
        subscriptions := [Subscription.new ⟨capacity, [], true⟩] } := by
  simp [run, step, initial, subscribeEntries, reconstruct, hr]

/-- The reconstructor sends the entry it decoded, and the client gets it. -/
def Sample.clientEvents : List ProxyEvent :=
  takeEvents ++ [.reconstructor .drain, .taskRecv 0, .taskSend 0, .clientRead 0]

/-- The entry of the batch reaches the client. -/
theorem Sample.run_clientEvents :
    ∃ p sub, Proxy.run proxyConfig clientEvents = some p ∧
      p.service.subscriptions[0]? = some sub ∧ sub.received = [⟨1, [0]⟩] ∧
      p.service.entrySender.sent = [⟨1, [0]⟩] := by
  rcases exists_first_call Ledger.sample (Sample.call [4]) with ⟨r, hr, hpushed⟩
  have hone : r.deshreddedEntries.map Deshredded.toPbEntry = [⟨1, [0]⟩] := by
    rw [hpushed]
    decide +kernel
  have hservice := EntryService.run_first 128 hr
  rw [hone] at hservice
  have htake : ∃ q, Proxy.run proxyConfig takeEvents = some q ∧ q.reconstructor = .draining :=
    ⟨_, rfl, rfl⟩
  rcases htake with ⟨q, hq, hstage⟩
  have hactions : takeEvents.filterMap ProxyEvent.action =
      [.subscribeEntries, .reconstruct (Sample.call [4])] := rfl
  have hq' := Proxy.service_eq hq
  rw [hactions, proxyConfig, hservice] at hq'
  have hrun : Proxy.run proxyConfig clientEvents =
      some { q with
        service :=
          { proxy := r.state
            deshreddedEntries := []
            entrySender := ⟨128, [⟨1, [0]⟩], true⟩
            subscriptions :=
              [⟨1, .receiving, Queue.new clientQueueCapacity, [⟨1, [0]⟩]⟩] } } := by
    rw [clientEvents, Proxy.run, EventRun.run_append, ← Proxy.run, hq]
    simp only [EventRun.run, List.foldlM_cons, List.foldlM_nil, Option.bind_eq_bind,
      Option.bind_some, Proxy.step, Proxy.stepReconstructor, hstage, hq']
    rfl
  exact ⟨_, _, hrun, rfl, rfl, rfl⟩

/-- The entry that one taken batch makes the reconstructor broadcast. -/
theorem broadcast_is_sequential_sample :
    ∃ p history, Proxy.run Sample.proxyConfig Sample.clientEvents = some p ∧
      p.service.entrySender.sent = [⟨1, [0]⟩] ∧
      runCalls Ledger.sample (takenCalls Sample.clientEvents) = .ok history ∧
      p.service.proxy = history.state ∧
      p.service.entrySender.sent ++ p.service.deshreddedEntries =
        history.pushed.map Deshredded.toPbEntry := by
  rcases Sample.run_clientEvents with ⟨p, _, hrun, _, _, hsent⟩
  rcases broadcast_is_sequential Sample.proxyConfig Sample.clientEvents p hrun with ⟨history, hrest⟩
  exact ⟨p, history, hrun, hsent, hrest⟩

/-! ## Clients -/

namespace Proxy

variable {cfg : ProxyConfig} {p p' : Proxy} {events past : List ProxyEvent} {e : ProxyEvent}

/-- Only a subscription of the proxy is a subscription of the service. -/
theorem eq_subscribeEntries (h : e.action = some .subscribeEntries) : e = .subscribeEntries := by
  unfold ProxyEvent.action at h
  split at h <;> simp_all

/-- Every subscription was made at some point of the run, and its client has received a prefix of
what was broadcast since. -/
theorem exists_subscribeEntries (h : run cfg events = some p) {k : Nat} {sub : Subscription}
    (hk : p.service.subscriptions[k]? = some sub) :
    ∃ before after q, events = before ++ ProxyEvent.subscribeEntries :: after ∧
      run cfg before = some q ∧ q.service.subscriptions.length = k ∧
      sub.received <+: p.service.entrySender.sent.drop q.service.entrySender.sent.length := by
  rw [service_eq h] at hk ⊢
  rcases exists_subscription hk with ⟨before', after', hsplit, hlength, hinv⟩
  rcases List.filterMap_eq_append_iff.mp hsplit with ⟨before, rest, rfl, rfl, hrest⟩
  rcases List.filterMap_eq_cons_iff.mp hrest with ⟨skipped, e, after, rfl, hskipped, he, _⟩
  obtain rfl := eq_subscribeEntries he
  have hevents : before ++ (skipped ++ ProxyEvent.subscribeEntries :: after) =
      (before ++ skipped) ++ ProxyEvent.subscribeEntries :: after := by
    simp
  have hactions : (before ++ skipped).filterMap ProxyEvent.action =
      before.filterMap ProxyEvent.action := by
    rw [List.filterMap_append, List.filterMap_eq_nil_iff.mpr hskipped, List.append_nil]
  rw [hevents] at h
  rcases EventRun.exists_step_of_run h with ⟨q, _, hrun, _⟩
  refine ⟨before ++ skipped, after, q, hevents, hrun, ?_⟩
  rw [service_eq hrun, hactions]
  exact ⟨hlength, hinv.received⟩

end Proxy

/-- In every interleaving, what client `k` has received is a stretch of what the sequential
reconstructor pushes for the batches that were taken: it starts with the first entry that was
broadcast after this client subscribed, as the one after `k` others, and has no gap. -/
theorem client_receives_pushed (cfg : ProxyConfig) (events : List ProxyEvent) (p : Proxy)
    (h : Proxy.run cfg events = some p) (k : Nat) (sub : Subscription)
    (hk : p.service.subscriptions[k]? = some sub) :
    ∃ history before after q, runCalls cfg.ledger (takenCalls events) = .ok history ∧
      events = before ++ ProxyEvent.subscribeEntries :: after ∧ Proxy.run cfg before = some q ∧
      q.service.subscriptions.length = k ∧
      sub.received <+:
        (history.pushed.map Deshredded.toPbEntry).drop q.service.entrySender.sent.length := by
  rcases (EntriesInv.of_run h).sequential with ⟨history, hcalls, _, hsent⟩
  rcases exists_subscribeEntries h hk with ⟨before, after, q, hevents, hrun, hlength, hreceived⟩
  refine ⟨history, before, after, q, hcalls, hevents, hrun, hlength, hreceived.trans ?_⟩
  rw [← hsent, List.drop_append]
  exact List.prefix_append _ _

namespace Sample

/-- Two data shreds, each of which is all the data of its slot. -/
def twoPackets : PacketBatch := [{ sourcedPacket with buffer := [0] }, sourcedPacket]

/-- A batch of both. -/
def twoBatch : Forwarding where
  packetBatch := twoPackets
  deduped := twoPackets
  numDeduped := 0
  dedupUsecs := 1
  localDestSockets := [⟨⟨.v4 1, 8001⟩, .ok, 1⟩, ⟨⟨.v4 2, 8001⟩, .ok, 1⟩]
  shouldReconstructShreds := true
  debugTraceShred := false
  length_lt := by decide
  deduped_marks := .cons ⟨rfl, rfl, rfl, id⟩ (.cons ⟨rfl, rfl, rfl, id⟩ .nil)
  numDeduped_eq := by decide
  data_isSome := by decide
  numFailed_le := by decide

/-- A client subscribes, the batch is offered, and the reconstructor takes it. -/
def takeTwoEvents : List ProxyEvent :=
  [.subscribeEntries, .forwarder 0 .load, .forwarder 0 .check, .listen 0 twoPackets,
    .forwarder 0 (.recv twoBatch), .forwarder 0 .op, .forwarder 0 .op, .reconstructor .check,
    .reconstructor (.recv IterOrder.insertion twoPackets)]

/-- A second client subscribes after the first entry was broadcast, and gets the second. -/
def twoClientsEvents : List ProxyEvent :=
  takeTwoEvents ++ [.reconstructor .drain, .subscribeEntries, .reconstructor .drain, .taskRecv 1,
    .taskSend 1, .clientRead 1]

/-- The second client has the second entry only. -/
theorem run_twoClientsEvents :
    ∃ p sub, Proxy.run proxyConfig twoClientsEvents = some p ∧
      p.service.subscriptions[1]? = some sub ∧ sub.received = [⟨1, [0]⟩] ∧
      p.service.entrySender.sent = [⟨0, [0]⟩, ⟨1, [0]⟩] := by
  rcases exists_first_call Ledger.sample (Sample.call [0, 4]) with ⟨r, hr, hpushed⟩
  have htwo : r.deshreddedEntries.map Deshredded.toPbEntry = [⟨0, [0]⟩, ⟨1, [0]⟩] := by
    rw [hpushed]
    decide +kernel
  have hservice := EntryService.run_first 128 hr
  rw [htwo] at hservice
  have htake : ∃ q, Proxy.run proxyConfig takeTwoEvents = some q ∧ q.reconstructor = .draining :=
    ⟨_, rfl, rfl⟩
  rcases htake with ⟨q, hq, hstage⟩
  have hactions : takeTwoEvents.filterMap ProxyEvent.action =
      [.subscribeEntries, .reconstruct (Sample.call [0, 4])] := rfl
  have hq' := Proxy.service_eq hq
  rw [hactions, proxyConfig, hservice] at hq'
  have hrun : Proxy.run proxyConfig twoClientsEvents =
      some { q with
        service :=
          { proxy := r.state
            deshreddedEntries := []
            entrySender := ⟨128, [⟨0, [0]⟩, ⟨1, [0]⟩], true⟩
            subscriptions :=
              [Subscription.new ⟨128, [], true⟩,
                ⟨2, .receiving, Queue.new clientQueueCapacity, [⟨1, [0]⟩]⟩] } } := by
    rw [twoClientsEvents, Proxy.run, EventRun.run_append, ← Proxy.run, hq]
    simp only [EventRun.run, List.foldlM_cons, List.foldlM_nil, Option.bind_eq_bind,
      Option.bind_some, Proxy.step, Proxy.stepReconstructor, hstage, hq']
    rfl
  exact ⟨_, _, hrun, rfl, rfl, rfl⟩

end Sample

/-- A second client, which subscribed between two entries, receives the second one. -/
theorem client_receives_pushed_sample :
    ∃ p sub, Proxy.run Sample.proxyConfig Sample.twoClientsEvents = some p ∧
      p.service.subscriptions[1]? = some sub ∧ sub.received = [⟨1, [0]⟩] ∧
      p.service.entrySender.sent = [⟨0, [0]⟩, ⟨1, [0]⟩] ∧
      ∃ history before after q,
        runCalls Ledger.sample (takenCalls Sample.twoClientsEvents) = .ok history ∧
        Sample.twoClientsEvents = before ++ ProxyEvent.subscribeEntries :: after ∧
        Proxy.run Sample.proxyConfig before = some q ∧ q.service.subscriptions.length = 1 ∧
        sub.received <+:
          (history.pushed.map Deshredded.toPbEntry).drop q.service.entrySender.sent.length := by
  rcases Sample.run_twoClientsEvents with ⟨p, sub, hrun, hsub, hreceived, hsent⟩
  exact ⟨p, sub, hrun, hsub, hreceived, hsent,
    client_receives_pushed Sample.proxyConfig Sample.twoClientsEvents p hrun 1 sub hsub⟩

end ShredstreamProxy
