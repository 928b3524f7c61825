import ShredstreamProxy.Proxy.Steps

/-!
# Where the batches go

A batch waits in the channel of its forwarder, is forwarded in one call, and its operations are
executed one after the other while other threads run.  What a forwarder has executed and what is
left of its call are always the operations of its calls in their order, and its calls and what waits
in its channel are what arrived, in the order of arrival.  So whatever is true of a call that runs
alone is true of its part in an interleaving.

Main results:

- Theorem {lit}`Forwarding.filterMap_ops`: the part of a call's operations that a projection sees.
- Theorem {lit}`Proxy.executedBy_append_pending`: what a forwarder has executed.
- Theorem {lit}`Proxy.arrived_eq`: what arrived and where it is.
- Theorem {lit}`forwarded_exactly_once`: every batch that arrives is sent once to every destination.
-/

namespace ShredstreamProxy

open Channel

/-! ## Calls that run alone -/

namespace ForwardOp

/-- The addition to a counter. -/
def add : ForwardOp → Option (Counter × UInt64)
  | .fetchAdd c n => some (c, n)
  | _ => none

/-- The batch that is offered to the reconstructor. -/
def offer : ForwardOp → Option PacketBatch
  | .trySend packetBatch => some packetBatch
  | _ => none

/-- The packet that is counted for its source. -/
def stat : ForwardOp → Option SourcedPacket
  | .storeStats packet => some packet
  | _ => none

/-- What is sent to a destination. -/
def sent : ForwardOp → Option (SocketAddr × List Bytes)
  | .batchSend destination packetsWithDest => some (destination, packetsWithDest)
  | _ => none

end ForwardOp

theorem Send.filterMap_add_ops (packetsWithDest : List Bytes) (numDeduped : UInt64) (send : Send) :
    (send.ops packetsWithDest numDeduped).filterMap ForwardOp.add =
      sendAdds packetsWithDest.length numDeduped send := by
  unfold Send.ops sendAdds
  cases send.result <;> rfl

theorem Send.filterMap_sent_ops (packetsWithDest : List Bytes) (numDeduped : UInt64) (send : Send) :
    (send.ops packetsWithDest numDeduped).filterMap ForwardOp.sent =
      [(send.destination, packetsWithDest)] := by
  unfold Send.ops
  cases send.result <;> rfl

theorem Send.filterMap_offer_ops (packetsWithDest : List Bytes) (numDeduped : UInt64)
    (send : Send) : (send.ops packetsWithDest numDeduped).filterMap ForwardOp.offer = [] := by
  unfold Send.ops
  cases send.result <;> rfl

theorem Send.filterMap_stat_ops (packetsWithDest : List Bytes) (numDeduped : UInt64)
    (send : Send) : (send.ops packetsWithDest numDeduped).filterMap ForwardOp.stat = [] := by
  unfold Send.ops
  cases send.result <;> rfl

/-- The part of the operations of a call that a projection looks at. -/
theorem Forwarding.filterMap_ops {α : Type} (g : ForwardOp → Option α) (f : Forwarding) :
    f.ops.filterMap g =
      (g (.fetchAdd .received (UInt64.ofNat f.packetBatch.length))).toList ++
      (if f.shouldReconstructShreds then (g (.trySend f.packetBatch)).toList else []) ++
      (g (.fetchAdd .dedupTimeSpent f.dedupUsecs)).toList ++
      f.deduped.filterMap (fun p => g (.storeStats p)) ++
      f.localDestSockets.flatMap
        fun send => (send.ops f.packetsWithDest f.numDeduped).filterMap g := by
  have hone : ∀ op, [op].filterMap g = (g op).toList := by
    intro op
    cases hop : g op <;> simp [hop]
  unfold ops
  simp only [List.filterMap_append, hone, List.filterMap_map, List.filterMap_flatMap]
  cases f.shouldReconstructShreds with
  | true => simp [hone]
  | false => simp

section Alone

variable (decode : Bytes → Option TraceShred) (toSystemTime : Timestamp → Option SystemTime)
  (packetsReceived : PacketsReceived) (f : Forwarding)

theorem Forwarding.adds_ops :
    f.ops.filterMap ForwardOp.add = (f.forward decode toSystemTime packetsReceived).adds := by
  rw [filterMap_ops]
  simp [ForwardOp.add, forward, Send.filterMap_add_ops]

theorem Forwarding.offers_ops :
    f.ops.filterMap ForwardOp.offer =
      (f.forward decode toSystemTime packetsReceived).reconstructed := by
  rw [filterMap_ops]
  simp [ForwardOp.offer, forward, Send.filterMap_offer_ops]

theorem Forwarding.stats_ops : f.ops.filterMap ForwardOp.stat = f.deduped := by
  rw [filterMap_ops]
  simp [ForwardOp.stat, Send.filterMap_stat_ops]

theorem Forwarding.sent_ops :
    f.ops.filterMap ForwardOp.sent = (f.forward decode toSystemTime packetsReceived).sent := by
  rw [filterMap_ops]
  simp [ForwardOp.sent, forward, Send.filterMap_sent_ops, List.map_eq_flatMap]

end Alone

/-! ## One forwarder in an interleaving -/

/-- Only taking a batch starts a call. -/
theorem ProxyEvent.call_forwarder {e : ForwarderEvent} (h : ∀ f, e ≠ .recv f) (i j : Nat) :
    (ProxyEvent.forwarder i e).call j = none := by
  cases e with
  | recv f => exact absurd rfl (h f)
  | _ => rfl

namespace ForwarderThread.Step

variable {cfg : ProxyConfig} {published : List SocketAddr} {i : Nat} {t t' : ForwarderThread}
  {e : ProxyEvent}

/-- A step of a forwarder is about this forwarder. -/
theorem about_eq (h : t.Step cfg published i e t') : e.about = some i := by
  cases h <;> rfl

/-- Only a new call gives a forwarder something to execute. -/
theorem pending_eq (h : t.Step cfg published i e t') :
    t'.pending = t.pending ++ (e.call i).toList.flatMap Forwarding.ops := by
  cases h with
  | listen packetBatch hstage => simp [pending, ProxyEvent.call]
  | listenerExit => simp [pending, ProxyEvent.call]
  | load hstage => simp [pending, ProxyEvent.call, hstage]
  | check hstage => simp [pending, ProxyEvent.call, hstage]
  | recv f rest hstage => simp [pending, ProxyEvent.call, hstage]
  | refreshTick hstage => simp [pending, ProxyEvent.call, hstage]
  | finish f hstage => simp [pending, ProxyEvent.call, hstage]
  | panic f hstage => simp [pending, ProxyEvent.call, hstage]
  | stop e hcall _ _ hpending =>
      rw [ProxyEvent.call_forwarder hcall, hpending]
      rfl

end ForwarderThread.Step

namespace Proxy

variable {cfg : ProxyConfig} {p p' : Proxy} {events past : List ProxyEvent} {e : ProxyEvent}
  {i : Nat} {t t' : ForwarderThread}

/-- The operations that forwarder `i` has executed. -/
def executedBy (p : Proxy) (i : Nat) : List ForwardOp :=
  p.executed.filterMap fun x => if x.1 = i then some x.2 else none

/-- The batches that the listener of forwarder `i` has handed over. -/
def arrived (i : Nat) (events : List ProxyEvent) : List PacketBatch :=
  events.filterMap (ProxyEvent.arrival i)

/-- The calls that forwarder `i` has started. -/
def calls (i : Nat) (events : List ProxyEvent) : List Forwarding :=
  events.filterMap (ProxyEvent.call i)

theorem arrived_concat (i : Nat) (past : List ProxyEvent) (e : ProxyEvent) :
    arrived i (past ++ [e]) = arrived i past ++ (e.arrival i).toList := by
  unfold arrived
  cases h : e.arrival i <;> simp [h]

theorem calls_concat (i : Nat) (past : List ProxyEvent) (e : ProxyEvent) :
    calls i (past ++ [e]) = calls i past ++ (e.call i).toList := by
  unfold calls
  cases h : e.call i <;> simp [h]

/-- An operation belongs to the forwarder that executes it. -/
theorem executedBy_exec (p : Proxy) (i j : Nat) (op : ForwardOp) :
    (p.exec j op).executedBy i = p.executedBy i ++ if j = i then [op] else [] := by
  unfold executedBy exec
  by_cases h : j = i <;> simp [h]

/-- What a step can do to forwarder `i`. -/
inductive Moves (cfg : ProxyConfig) (p : Proxy) (i : Nat) (t : ForwarderThread) :
    ProxyEvent → Proxy → ForwarderThread → Prop
  /-- The step is about something else. -/
  | other {e : ProxyEvent} {p' : Proxy} (habout : e.about ≠ some i)
      (hexecuted : p'.executedBy i = p.executedBy i) : Moves cfg p i t e p' t
  | thread {e : ProxyEvent} {p' : Proxy} {t' : ForwarderThread}
      (hstep : t.Step cfg p.refresh.unionedDestSockets i e t')
      (hexecuted : p'.executedBy i = p.executedBy i) : Moves cfg p i t e p' t'
  | op {p' : Proxy} {f : Forwarding} {op : ForwardOp} {ops : List ForwardOp}
      (hstage : t.stage = .forwarding f (op :: ops))
      (hexecuted : p'.executedBy i = p.executedBy i ++ [op]) :
      Moves cfg p i t (.forwarder i .op) p' { t with stage := .forwarding f ops }

/-- A forwarder after a step was there before and made a move. -/
theorem exists_moves (hstep : Step cfg p e p') (hi : p'.forwarders[i]? = some t') :
    ∃ t, p.forwarders[i]? = some t ∧ Moves cfg p i t e p' t' := by
  cases hstep with
  | control he =>
      exact ⟨t', hi, .other (by simp [ProxyEvent.about_of_isControl he]) rfl⟩
  | @thread _ j t t'' hj hstep =>
      rcases Family.getElem?_set_cases hj hi with ⟨rfl, rfl⟩ | ⟨hij, hold⟩
      · exact ⟨t, hj, .thread hstep rfl⟩
      · exact ⟨t', hold, .other (by simpa [hstep.about_eq] using hij) rfl⟩
  | @op j t f op ops hj hstage =>
      have heffect : (p.exec j op).forwarders = p.forwarders := by rw [exec_eq]
      rw [setForwarder, heffect] at hi
      rcases Family.getElem?_set_cases hj hi with ⟨rfl, rfl⟩ | ⟨hij, hold⟩
      · exact ⟨t, hj, .op hstage ((executedBy_exec p j j op).trans (by simp))⟩
      · exact ⟨t', hold, .other (by simpa [ProxyEvent.about] using hij)
          ((executedBy_exec p i j op).trans (by simp [hij]))⟩
  | publish => exact ⟨t', hi, .other (by simp [ProxyEvent.about]) rfl⟩
  | accessory => exact ⟨t', hi, .other (by simp [ProxyEvent.about]) rfl⟩
  | retain => exact ⟨t', hi, .other (by simp [ProxyEvent.about]) rfl⟩
  | recv => exact ⟨t', hi, .other (by simp [ProxyEvent.about]) rfl⟩
  | stopReconstructor => exact ⟨t', hi, .other (by simp [ProxyEvent.about]) rfl⟩
  | drain => exact ⟨t', hi, .other (by simp [ProxyEvent.about]) rfl⟩
  | client he => exact ⟨t', hi, .other (by simp [ProxyEvent.about_of_action, he]) rfl⟩

/-- What holds of every forwarder initially and is kept by its moves holds in every run. -/
theorem forwarder_induction {I : List ProxyEvent → Proxy → ForwarderThread → Prop}
    (hinit : I [] (initial cfg) ForwarderThread.initial)
    (hstep : ∀ past p e p' t t', run cfg past = some p → I past p t → Moves cfg p i t e p' t' →
      I (past ++ [e]) p' t')
    (h : run cfg events = some p) (hi : p.forwarders[i]? = some t) : I events p t := by
  have hall : ∀ t, p.forwarders[i]? = some t → I events p t := by
    refine run_induction (I := fun past p => ∀ t, p.forwarders[i]? = some t → I past p t) ?_ ?_ h
    · intro t ht
      have hmem := List.mem_of_getElem? ht
      rw [initial, List.mem_replicate] at hmem
      exact hmem.2 ▸ hinit
    · intro past p e p' hrun hI hlast t' ht'
      rcases exists_moves hlast ht' with ⟨t, ht, hmoves⟩
      exact hstep past p e p' t t' hrun (hI t ht) hmoves
  exact hall t hi

/-- What a forwarder has executed and what is left of its call are the operations of its calls. -/
theorem executedBy_append_pending (h : run cfg events = some p)
    (hi : p.forwarders[i]? = some t) :
    p.executedBy i ++ t.pending = (calls i events).flatMap Forwarding.ops := by
  refine forwarder_induction (I := fun events p t =>
    p.executedBy i ++ t.pending = (calls i events).flatMap Forwarding.ops) rfl ?_ h hi
  intro past p e p' t t' _ hI hmoves
  rw [calls_concat, List.flatMap_append, ← hI]
  cases hmoves with
  | other habout hexecuted => simp [ProxyEvent.call_of_about habout, hexecuted]
  | thread hstep hexecuted => rw [hexecuted, hstep.pending_eq, List.append_assoc]
  | op hstage hexecuted =>
      simp [hexecuted, ForwarderThread.pending, hstage, ProxyEvent.call]

/-- Where a call was started. -/
theorem exists_calls_of_recv {earlier later : List ProxyEvent} {f : Forwarding}
    (h : run cfg (earlier ++ ProxyEvent.forwarder i (.recv f) :: later) = some p) :
    ∃ q t, run cfg earlier = some q ∧ q.forwarders[i]? = some t ∧ t.stage = .selecting ∧
      Calls cfg t f.packetBatch f := by
  rcases EventRun.exists_step_of_run h with ⟨q, q', hrun, hstep⟩
  simp only [step] at hstep
  split at hstep
  · rename_i t hi
    simp only [stepForwarder] at hstep
    split at hstep
    · rename_i hstage _
      split at hstep
      · rename_i hcalls
        exact ⟨q, t, hrun, hi, hstage, rfl, hcalls.2⟩
      · contradiction
    · contradiction
  · contradiction

/-- The calls of a run have the arguments that the proxy was started with. -/
theorem shouldReconstructShreds_of_mem_calls (h : run cfg events = some p) {f : Forwarding}
    (hf : f ∈ calls i events) : f.shouldReconstructShreds = cfg.shouldReconstructShreds := by
  rcases List.mem_filterMap.mp hf with ⟨e, he, hcall⟩
  have hrecv : e = .forwarder i (.recv f) := by
    unfold ProxyEvent.call at hcall
    split at hcall
    · simp_all
    · contradiction
  rcases List.append_of_mem he with ⟨earlier, later, rfl⟩
  subst hrecv
  rcases exists_calls_of_recv h with ⟨_, _, _, _, _, hcalls⟩
  exact hcalls.2.2.1

/-- What arrived was taken by a call, or waits.  A forwarder that stops loses what waits. -/
theorem arrived_eq (h : run cfg events = some p) (hi : p.forwarders[i]? = some t) :
    ∃ lost, arrived i events =
        (calls i events).map Forwarding.packetBatch ++ t.packetReceiver ++ lost ∧
      (t.stage ≠ .stopped → lost = []) := by
  refine forwarder_induction (I := fun events _ t => ∃ lost, arrived i events =
    (calls i events).map Forwarding.packetBatch ++ t.packetReceiver ++ lost ∧
      (t.stage ≠ .stopped → lost = [])) ⟨[], rfl, fun _ => rfl⟩ ?_ h hi
  rintro past p e p' t t' _ ⟨lost, hI, hlost⟩ hmoves
  rw [arrived_concat, calls_concat, hI]
  cases hmoves with
  | other habout =>
      exact ⟨lost, by simp [ProxyEvent.arrival_of_about habout, ProxyEvent.call_of_about habout],
        hlost⟩
  | op hstage =>
      have hnone : lost = [] := hlost (by simp [hstage])
      exact ⟨[], by simp [hnone, ProxyEvent.arrival, ProxyEvent.call], fun _ => rfl⟩
  | thread hstep =>
      cases hstep with
      | listen packetBatch hstage =>
          have hnone := hlost hstage
          exact ⟨[], by simp [hnone, ProxyEvent.arrival, ProxyEvent.call], fun _ => rfl⟩
      | listenerExit => exact ⟨lost, by simp [ProxyEvent.arrival, ProxyEvent.call], hlost⟩
      | recv f rest hstage hnext =>
          have hnone : lost = [] := hlost (by simp [hstage])
          exact ⟨[], by simp [hnone, hnext, ProxyEvent.arrival, ProxyEvent.call], fun _ => rfl⟩
      | stop e hcall =>
          refine ⟨t.packetReceiver ++ lost, ?_, fun h => absurd rfl h⟩
          simp [ProxyEvent.call_forwarder hcall, ProxyEvent.arrival, ForwarderThread.stop]
      | load hstage | check hstage | refreshTick hstage | finish f hstage | panic f hstage =>
          have hnone : lost = [] := hlost (by simp [hstage])
          exact ⟨[], by simp [hnone, ProxyEvent.arrival, ProxyEvent.call], fun _ => rfl⟩

/-- What forwarder `i` has sent, in its order. -/
def sentBy (p : Proxy) (i : Nat) : List (SocketAddr × List Bytes) :=
  (p.executedBy i).filterMap ForwardOp.sent

/-- What a call sends: the packets that are left, to each of its destinations. -/
def sends (f : Forwarding) : List (SocketAddr × List Bytes) :=
  f.localDestSockets.map fun send => (send.destination, f.leftData)

end Proxy

open Proxy

/-- In every interleaving, the calls of a forwarder are about the batches that arrived, each once
and in the order of arrival, and what the forwarder has sent is what these calls send: the packets
that deduplication left, once to each destination of the call. A batch is missing only if the
forwarder stopped before it took it. -/
theorem forwarded_exactly_once (cfg : ProxyConfig) (events : List ProxyEvent) (p : Proxy)
    (h : Proxy.run cfg events = some p) (i : Nat) (t : ForwarderThread)
    (hi : p.forwarders[i]? = some t) :
    (∃ lost, arrived i events =
        (calls i events).map Forwarding.packetBatch ++ t.packetReceiver ++ lost ∧
      (t.stage ≠ .stopped → lost = [])) ∧
    p.sentBy i ++ t.pending.filterMap ForwardOp.sent = (calls i events).flatMap sends := by
  refine ⟨arrived_eq h hi, ?_⟩
  have hcalls : ∀ f : Forwarding, f.ops.filterMap ForwardOp.sent = sends f := by
    intro f
    rw [Forwarding.sent_ops cfg.decode cfg.toSystemTime (fun _ => none)]
    simp [Forwarding.forward, sends, f.packetsWithDest_eq]
  rw [sentBy, ← List.filterMap_append, executedBy_append_pending h hi, List.filterMap_flatMap]
  simp only [hcalls]

namespace Sample

/-- One forwarder, with the reconstructor and two destinations. -/
def proxyConfig : ProxyConfig where
  ledger := Ledger.sample
  decode := fun _ => none
  toSystemTime := fun _ => none
  numThreads := 1
  destIpPorts := destIpPorts
  discoveredEndpointsPort := none
  shouldReconstructShreds := true
  debugTraceShred := false
  entryCapacity := 128
  shredstream := false
  prometheusBindAddr := false

/-- The only data shred of slot 1. -/
def sourcedPacket : SourcedPacket where
  discard := false
  size := 1
  buffer := [4]
  addr := .v4 7

/-- A batch of one packet goes to both destinations. -/
def oneBatch : Forwarding where
  packetBatch := [sourcedPacket]
  deduped := [sourcedPacket]
  numDeduped := 0
  dedupUsecs := 1
  localDestSockets := [⟨⟨.v4 1, 8001⟩, .ok, 1⟩, ⟨⟨.v4 2, 8001⟩, .ok, 1⟩]
  shouldReconstructShreds := true
  debugTraceShred := false
  length_lt := by decide
  deduped_marks := .cons ⟨rfl, rfl, rfl, id⟩ .nil
  numDeduped_eq := by decide
  data_isSome := by decide
  numFailed_le := by decide

/-- A batch arrives and is forwarded. -/
def forwardEvents : List ProxyEvent :=
  [.forwarder 0 .load, .forwarder 0 .check, .listen 0 [sourcedPacket],
    .forwarder 0 (.recv oneBatch)] ++
  List.replicate 20 (.forwarder 0 .op) ++ [.forwarder 0 .finish]

end Sample

/-- A batch that is sent to both destinations. -/
theorem forwarded_exactly_once_sample :
    ∃ p t, Proxy.run Sample.proxyConfig Sample.forwardEvents = some p ∧
      p.forwarders[0]? = some t ∧
      p.sentBy 0 = [(⟨.v4 1, 8001⟩, [[4]]), (⟨.v4 2, 8001⟩, [[4]])] ∧
      (∃ lost, arrived 0 Sample.forwardEvents =
          (calls 0 Sample.forwardEvents).map Forwarding.packetBatch ++ t.packetReceiver ++ lost ∧
        (t.stage ≠ .stopped → lost = [])) ∧
      p.sentBy 0 ++ t.pending.filterMap ForwardOp.sent =
        (calls 0 Sample.forwardEvents).flatMap sends :=
  ⟨_, _, rfl, rfl, by decide,
    forwarded_exactly_once Sample.proxyConfig Sample.forwardEvents _ rfl 0 _ rfl⟩

end ShredstreamProxy
