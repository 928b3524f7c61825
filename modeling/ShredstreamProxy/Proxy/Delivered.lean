import ShredstreamProxy.Properties.Provenance
import ShredstreamProxy.Properties.ServiceTotals
import ShredstreamProxy.Proxy.Reconstruction

/-!
# From the sockets to the clients

A client of the entries service sees the end of a long path: a listener reads packets from its
socket, a forwarder takes the batch and offers it, the reconstructor takes the offer, decodes what
it can and broadcasts it, and a task passes it on.  This module follows the path backwards, through
every interleaving.

Main results:

- Theorem {lit}`Proxy.mem_listened_of_mem_offers`: every offered batch was handed over by a
  listener.
- Theorem {lit}`Proxy.mem_listened_of_mem_taken`: so was every batch that the reconstructor took.
- Theorem {lit}`delivered_from_sockets`: clients only get what was decoded from received packets,
  and nothing twice.
- Theorem {lit}`client_prints_received`: what the example client prints, against the metrics.
-/

namespace ShredstreamProxy

namespace Proxy

variable {cfg : ProxyConfig} {p : Proxy} {events : List ProxyEvent} {packetBatch : PacketBatch}

/-- The batches that the listeners have handed over. -/
def listened (events : List ProxyEvent) : List PacketBatch :=
  events.filterMap fun
    | .listen _ packetBatch => some packetBatch
    | _ => none

/-- A batch that arrived at a forwarder was handed over by a listener. -/
theorem mem_listened_of_mem_arrived {i : Nat} (h : packetBatch ∈ arrived i events) :
    packetBatch ∈ listened events := by
  rcases List.mem_filterMap.mp h with ⟨e, he, harrival⟩
  refine List.mem_filterMap.mpr ⟨e, he, ?_⟩
  unfold ProxyEvent.arrival at harrival
  split at harrival
  · rename_i j b
    split at harrival
    · exact harrival
    · contradiction
  · contradiction

/-- Only the forwarders of the proxy execute operations. -/
theorem exists_forwarder_of_mem_executed (h : run cfg events = some p) {x : Nat × ForwardOp}
    (hx : x ∈ p.executed) : ∃ t, p.forwarders[x.1]? = some t := by
  have hlt : ∀ x ∈ p.executed, x.1 < p.forwarders.length := by
    refine run_induction (I := fun _ p => ∀ x ∈ p.executed, x.1 < p.forwarders.length) ?_ ?_ h
    · exact fun x hx => absurd hx List.not_mem_nil
    · intro past p e p' _ hI hstep
      cases hstep with
      | thread => simpa using hI
      | @op i t f op ops hi hstage =>
          rw [exec_eq]
          intro x hx
          simp only [setForwarder, List.length_set]
          rcases List.mem_append.mp hx with hx | hx
          · exact hI x hx
          · rw [List.mem_singleton.mp hx]
            exact (List.getElem?_eq_some_iff.mp hi).1
      | control | publish | accessory | retain | recv | stopReconstructor | drain | client =>
          exact hI
  exact ⟨_, List.getElem?_eq_getElem (hlt x hx)⟩

/-- Every offered batch was handed over by a listener. -/
theorem mem_listened_of_mem_offers (h : run cfg events = some p) {o : Offer} (ho : o ∈ p.offers) :
    o.packetBatch ∈ listened events := by
  have hoffered : o.packetBatch ∈ p.offersBy o.forwarder :=
    List.mem_map.mpr ⟨o, List.mem_filter.mpr ⟨ho, by simp⟩, rfl⟩
  rw [offersBy_eq h] at hoffered
  rcases List.mem_filterMap.mp hoffered with ⟨op, hop, hoffer⟩
  -- the operation belongs to a call of an existing forwarder
  have hforwarder : ∃ t, p.forwarders[o.forwarder]? = some t := by
    rcases List.mem_filterMap.mp hop with ⟨x, hx, hxi⟩
    split at hxi
    · rename_i hi
      rw [← hi]
      exact exists_forwarder_of_mem_executed h hx
    · contradiction
  rcases hforwarder with ⟨t, hi⟩
  have hcall : op ∈ (calls o.forwarder events).flatMap Forwarding.ops := by
    rw [← executedBy_append_pending h hi]
    exact List.mem_append_left _ hop
  rcases List.mem_flatMap.mp hcall with ⟨f, hf, hopf⟩
  have hbatch : o.packetBatch = f.packetBatch := by
    have hmem : o.packetBatch ∈ f.ops.filterMap ForwardOp.offer :=
      List.mem_filterMap.mpr ⟨op, hopf, hoffer⟩
    rw [Forwarding.offers_ops cfg.decode cfg.toSystemTime fun _ => none] at hmem
    simp only [Forwarding.forward] at hmem
    split at hmem
    · exact List.mem_singleton.mp hmem
    · contradiction
  rcases arrived_eq h hi with ⟨lost, harrived, _⟩
  apply mem_listened_of_mem_arrived (i := o.forwarder)
  rw [harrived, hbatch, List.append_assoc]
  exact List.mem_append_left _ (List.mem_map.mpr ⟨f, hf, rfl⟩)

/-- Every batch that the reconstructor took was handed over by a listener. -/
theorem mem_listened_of_mem_taken (h : run cfg events = some p)
    (ht : packetBatch ∈ (taken events).map Prod.snd) : packetBatch ∈ listened events := by
  rcases (QueueInv.of_run h).fifo with ⟨lost, hfifo, _⟩
  have haccepted : packetBatch ∈ p.accepted := by
    rw [hfifo, List.append_assoc]
    exact List.mem_append_left _ ht
  rcases List.mem_map.mp haccepted with ⟨o, ho, rfl⟩
  exact mem_listened_of_mem_offers h (List.mem_filter.mp ho).1

/-- The packets that arrived at the sockets. -/
def receivedPackets (events : List ProxyEvent) : List Packet :=
  (listened events).flatMap fun packetBatch => packetBatch.map SourcedPacket.toPacket

/-- The packets of the batches taken arrived at the sockets. -/
theorem mem_receivedPackets_of_mem_takenCalls (h : run cfg events = some p) {c : Call}
    (hc : c ∈ takenCalls events) {packet : Packet} (hpacket : packet ∈ c.packets) :
    packet ∈ receivedPackets events := by
  rcases List.mem_map.mp hc with ⟨x, hx, rfl⟩
  have hlistened := mem_listened_of_mem_taken h (List.mem_map.mpr ⟨x, hx, rfl⟩)
  exact List.mem_flatMap.mpr ⟨x.2, hlistened, hpacket⟩

/-- What a client has received are messages of pushed items, in their order. -/
theorem exists_items_of_received (h : run cfg events = some p) {k : Nat} {sub : Subscription}
    (hk : p.service.subscriptions[k]? = some sub) :
    ∃ history items, runCalls cfg.ledger (takenCalls events) = .ok history ∧
      List.Sublist items history.pushed ∧ sub.received = items.map Deshredded.toPbEntry := by
  rcases (EntriesInv.of_run h).sequential with ⟨history, hcalls, _, hsent⟩
  rcases exists_subscribeEntries h hk with ⟨_, _, q, _, _, _, hreceived⟩
  have hreceived_eq : sub.received <+:
      (history.pushed.map Deshredded.toPbEntry).drop q.service.entrySender.sent.length := by
    rw [← hsent, List.drop_append]
    exact hreceived.trans (List.prefix_append _ _)
  rw [← List.map_drop, List.prefix_iff_eq_take, ← List.map_take] at hreceived_eq
  refine ⟨history, _, hcalls, ?_, hreceived_eq⟩
  exact (List.take_sublist sub.received.length _).trans
    (List.drop_sublist q.service.entrySender.sent.length history.pushed)

end Proxy

open Proxy

/-- In every interleaving, what a client has received is a list of items decoded from packets that
arrived at the sockets.  Each item has one data shred of its slot for every index of its range, of
which exactly the last completes a block of data, and no two items share an index of a slot. -/
theorem delivered_from_sockets (cfg : ProxyConfig) (events : List ProxyEvent) (p : Proxy)
    (h : Proxy.run cfg events = some p) (k : Nat) (sub : Subscription)
    (hk : p.service.subscriptions[k]? = some sub) :
    ∃ items : List Deshredded, sub.received = items.map Deshredded.toPbEntry ∧
      (∀ d ∈ items, ∃ shreds, d.Sources cfg.ledger (receivedPackets events) shreds) ∧
      items.Pairwise fun d d' => d.slot = d'.slot → Disjoint d.range d'.range := by
  rcases exists_items_of_received h hk with ⟨history, items, hcalls, hsublist, hreceived⟩
  refine ⟨items, hreceived, ?_, (disjoint_of_pushed hcalls).sublist hsublist⟩
  intro d hd
  apply sources_of_pushed _ hcalls (hsublist.subset hd)
  exact fun c hc packet hpacket => mem_receivedPackets_of_mem_takenCalls h hc hpacket

/-- A client that has received the entry of one packet. -/
theorem delivered_from_sockets_sample :
    ∃ p sub, Proxy.run Sample.proxyConfig Sample.clientEvents = some p ∧
      p.service.subscriptions[0]? = some sub ∧ sub.received = [⟨1, [0]⟩] ∧
      ∃ items : List Deshredded, sub.received = items.map Deshredded.toPbEntry ∧
        (∀ d ∈ items, ∃ shreds,
          d.Sources Ledger.sample (receivedPackets Sample.clientEvents) shreds) ∧
        items.Pairwise fun d d' => d.slot = d'.slot → Disjoint d.range d'.range := by
  rcases Sample.run_clientEvents with ⟨p, sub, hrun, hsub, hreceived, _⟩
  exact ⟨p, sub, hrun, hsub, hreceived,
    delivered_from_sockets Sample.proxyConfig Sample.clientEvents p hrun 0 sub hsub⟩

/-! ## The example client -/

/-- What the example client prints for a message: that it cannot be decoded, or its slot and how
many entries and transactions it holds. -/
inductive ClientLine where
  | deserializationFailed
  | slotEntry (slot : Slot) (entries transactions : Nat)
deriving DecidableEq

def clientLine (ledger : Ledger) (slotEntry : PbEntry) : ClientLine :=
  match ledger.deserialize slotEntry.entries with
  | none => .deserializationFailed
  | some entries =>
      .slotEntry slotEntry.slot entries.length (entries.map fun e => e.transactions.length).sum

namespace ClientLine

def entries : ClientLine → Nat
  | deserializationFailed => 0
  | slotEntry _ entries _ => entries

def transactions : ClientLine → Nat
  | deserializationFailed => 0
  | slotEntry _ _ transactions => transactions

end ClientLine

/-- The line for a pushed item. -/
def Deshredded.clientLine (d : Deshredded) : ClientLine :=
  .slotEntry d.slot d.entries.length d.txnCount

/-- The client decodes the message of an item that was pushed. -/
theorem clientLine_toPbEntry {ledger : Ledger} {calls : List Call} {history : History}
    (hcalls : runCalls ledger calls = .ok history) {d : Deshredded} (hd : d ∈ history.pushed) :
    clientLine ledger d.toPbEntry = d.clientLine := by
  have hsources : ∃ shreds, d.Sources ledger (calls.flatMap Call.packets) shreds := by
    apply sources_of_pushed _ hcalls hd
    exact fun c hc packet hpacket => List.mem_flatMap.mpr ⟨c, hc, hpacket⟩
  rcases hsources with ⟨shreds, hsources⟩
  simp only [clientLine, Deshredded.toPbEntry, hsources.deserialize_eq]
  rfl

/-- In every interleaving, the example client can decode every message it receives, and the entries
and transactions that it prints are at most those that the metrics of the reconstructor count. -/
theorem client_prints_received (cfg : ProxyConfig) (events : List ProxyEvent) (p : Proxy)
    (h : Proxy.run cfg events = some p) (k : Nat) (sub : Subscription)
    (hk : p.service.subscriptions[k]? = some sub) :
    ∃ history, runCalls cfg.ledger (takenCalls events) = .ok history ∧
      .deserializationFailed ∉ sub.received.map (clientLine cfg.ledger) ∧
      ((sub.received.map (clientLine cfg.ledger)).map ClientLine.entries).sum ≤
        history.metrics.entryCount ∧
      ((sub.received.map (clientLine cfg.ledger)).map ClientLine.transactions).sum ≤
        history.metrics.txnCount := by
  rcases exists_items_of_received h hk with ⟨history, items, hcalls, hsublist, hreceived⟩
  have haccounts := (accounts_of_runCalls hcalls).1
  have hlines : sub.received.map (clientLine cfg.ledger) = items.map Deshredded.clientLine := by
    rw [hreceived, List.map_map]
    apply List.map_congr_left
    intro d hd
    exact clientLine_toPbEntry hcalls (hsublist.subset hd)
  refine ⟨history, hcalls, ?_, ?_, ?_⟩
  · rw [hlines]
    intro hmem
    rcases List.mem_map.mp hmem with ⟨d, _, hd⟩
    contradiction
  · rw [hlines, haccounts.entryCount, List.map_map]
    exact (hsublist.map fun d => d.entries.length).sum_le_sum fun _ _ => Nat.zero_le _
  · rw [hlines, haccounts.txnCount, List.map_map]
    exact (hsublist.map Deshredded.txnCount).sum_le_sum fun _ _ => Nat.zero_le _

/-- The line that the client prints for one entry. -/
theorem client_prints_received_sample :
    ∃ p sub, Proxy.run Sample.proxyConfig Sample.clientEvents = some p ∧
      p.service.subscriptions[0]? = some sub ∧
      sub.received.map (clientLine Ledger.sample) = [.slotEntry 1 0 0] ∧
      ∃ history, runCalls Ledger.sample (takenCalls Sample.clientEvents) = .ok history ∧
        .deserializationFailed ∉ sub.received.map (clientLine Ledger.sample) ∧
        ((sub.received.map (clientLine Ledger.sample)).map ClientLine.entries).sum ≤
          history.metrics.entryCount ∧
        ((sub.received.map (clientLine Ledger.sample)).map ClientLine.transactions).sum ≤
          history.metrics.txnCount := by
  rcases Sample.run_clientEvents with ⟨p, sub, hrun, hsub, hreceived, _⟩
  have hline : sub.received.map (clientLine Ledger.sample) = [.slotEntry 1 0 0] := by
    rw [hreceived]
    decide
  exact ⟨p, sub, hrun, hsub, hline,
    client_prints_received Sample.proxyConfig Sample.clientEvents p hrun 0 sub hsub⟩

end ShredstreamProxy
