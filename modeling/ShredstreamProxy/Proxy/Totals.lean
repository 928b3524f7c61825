import ShredstreamProxy.Forwarder.Accounting
import ShredstreamProxy.Lib.Family
import ShredstreamProxy.Metrics.Conservation
import ShredstreamProxy.Proxy.Batches

/-!
# Totals over all threads

Every operation of a call contributes to some total: a counter, or the statistics of a source. What
the executed operations contributed, and what the calls in progress still will, is always what the
calls contribute that were started. The counters and the statistics are then followed to where they
end: a counter is swapped out by the accessory thread, the entry of a source is reported and
removed.

Main results:

- Theorem {lit}`Proxy.weight_conserved`: executed and pending operations against the calls.
- Theorem {lit}`Proxy.exists_actions`: the counters of the proxy are those of the metrics system.
- Theorem {lit}`totals_conserved`: the cumulative counters against the packets that were forwarded.
- Theorem {lit}`exit_totals`: what the proxy logs when it exits.
- Theorem {lit}`sources_conserved`: the statistics of every source.
-/

namespace ShredstreamProxy

/-- The call that some forwarder starts. -/
def ProxyEvent.anyCall : ProxyEvent → Option Forwarding
  | .forwarder _ (.recv f) => some f
  | _ => none

/-- The call of an event is that of the forwarder it is about. -/
theorem ProxyEvent.call_eq_anyCall {e : ProxyEvent} {i : Nat} (h : e.about = some i) :
    e.call i = e.anyCall := by
  cases e with
  | forwarder j e =>
      obtain rfl : j = i := Option.some.inj h
      cases e with
      | recv f => exact if_pos rfl
      | _ => rfl
  | _ => rfl

/-- An event about no forwarder starts no call. -/
theorem ProxyEvent.anyCall_of_about {e : ProxyEvent} (h : e.about = none) : e.anyCall = none := by
  cases e with
  | forwarder j e => contradiction
  | _ => rfl

namespace Proxy

variable {cfg : ProxyConfig} {p p' : Proxy} {events past : List ProxyEvent} {e : ProxyEvent}

/-- The calls that all forwarders have started. -/
def allCalls (events : List ProxyEvent) : List Forwarding :=
  events.filterMap ProxyEvent.anyCall

theorem allCalls_concat (past : List ProxyEvent) (e : ProxyEvent) :
    allCalls (past ++ [e]) = allCalls past ++ e.anyCall.toList := by
  unfold allCalls
  cases h : e.anyCall <;> simp [h]

/-! ## Operations and calls -/

section Weights

variable {M : Type} [AddCommMonoid M] (w : ForwardOp → M)

/-- What the executed operations contribute. -/
def executedWeight (p : Proxy) : M :=
  (p.executed.map fun x => w x.2).sum

/-- What the operations that are left of all calls contribute. -/
def pendingWeight (p : Proxy) : M :=
  (p.forwarders.map fun t => (t.pending.map w).sum).sum

/-- What some calls contribute. -/
def callsWeight (calls : List Forwarding) : M :=
  (calls.map fun f => (f.ops.map w).sum).sum

theorem callsWeight_concat (past : List ProxyEvent) (e : ProxyEvent) :
    callsWeight w (allCalls (past ++ [e])) =
      callsWeight w (allCalls past) + (e.anyCall.toList.map fun f => (f.ops.map w).sum).sum := by
  simp [callsWeight, allCalls_concat]

/-- What the executed operations contributed, and what is left of the calls in progress, is what the
calls contribute. -/
theorem weight_conserved (h : run cfg events = some p) :
    executedWeight w p + pendingWeight w p = callsWeight w (allCalls events) := by
  refine run_induction (I := fun events p =>
    executedWeight w p + pendingWeight w p = callsWeight w (allCalls events)) ?_ ?_ h
  · simp [executedWeight, pendingWeight, callsWeight, allCalls, initial,
      ForwarderThread.initial, ForwarderThread.pending]
  · intro past p e p' _ hI hstep
    rw [callsWeight_concat]
    have hframe : e.anyCall = none → executedWeight w p' = executedWeight w p →
        pendingWeight w p' = pendingWeight w p →
        executedWeight w p' + pendingWeight w p' =
          callsWeight w (allCalls past) +
            (e.anyCall.toList.map fun f => (f.ops.map w).sum).sum := by
      intro hnone hexecuted hpending
      rw [hexecuted, hpending, hI, hnone]
      simp
    cases hstep with
    | control he =>
        exact hframe (ProxyEvent.anyCall_of_about (ProxyEvent.about_of_isControl he)) rfl rfl
    | @thread _ i t t' hi hstep =>
        rcases Family.exists_sum_map_set hi fun t => (t.pending.map w).sum with ⟨rest, hsum, hset⟩
        rw [← hI, ← ProxyEvent.call_eq_anyCall hstep.about_eq]
        simp only [executedWeight, pendingWeight]
        rw [hset, hsum, hstep.pending_eq]
        cases e.call i <;> simp [add_assoc]
    | @op i t f op ops hi hstage =>
        rcases Family.exists_sum_map_set hi fun t => (t.pending.map w).sum with ⟨rest, hsum, hset⟩
        rw [← hI]
        simp only [executedWeight, pendingWeight, setForwarder, exec_eq]
        rw [hset, hsum]
        simp only [ForwarderThread.pending, hstage, List.map_append, List.map_cons, List.map_nil,
          List.sum_append, List.sum_cons, List.sum_nil, ProxyEvent.anyCall, Option.toList_none,
          add_zero]
        abel
    | publish => exact hframe rfl rfl rfl
    | accessory => exact hframe rfl rfl rfl
    | retain => exact hframe rfl rfl rfl
    | recv => exact hframe rfl rfl rfl
    | stopReconstructor => exact hframe rfl rfl rfl
    | drain => exact hframe rfl rfl rfl
    | client he =>
        have hnone : e.anyCall = none :=
          ProxyEvent.anyCall_of_about (ProxyEvent.about_of_action (by simp [he]))
        exact hframe hnone rfl rfl

end Weights

/-! ## Counters -/

/-- The additions that the forwarders have made. -/
def adds (p : Proxy) : List (Counter × UInt64) :=
  p.executed.filterMap fun x => x.2.add

/-- The counters of the proxy are those of the metrics system, after some steps of it that add what
the forwarders have added. -/
theorem exists_actions (h : run cfg events = some p) :
    ∃ actions, (TallyRun.run cfg.shouldReconstructShreds actions).system.metrics = p.metrics ∧
      (TallyRun.run cfg.shouldReconstructShreds actions).system.accessory = p.accessory ∧
      ∀ c, (TallyRun.run cfg.shouldReconstructShreds actions).tally.added c = added c p.adds := by
  refine run_induction (I := fun _ p => ∃ actions,
    (TallyRun.run cfg.shouldReconstructShreds actions).system.metrics = p.metrics ∧
    (TallyRun.run cfg.shouldReconstructShreds actions).system.accessory = p.accessory ∧
    ∀ c, (TallyRun.run cfg.shouldReconstructShreds actions).tally.added c = added c p.adds)
    ⟨[], rfl, rfl, fun _ => rfl⟩ ?_ h
  rintro past p e p' _ ⟨actions, hmetrics, haccessory, hadded⟩ hstep
  have hconcat : ∀ a, TallyRun.run cfg.shouldReconstructShreds (actions ++ [a]) =
      (TallyRun.run cfg.shouldReconstructShreds actions).step a := by
    intro a
    simp [TallyRun.run]
  cases hstep with
  | control | thread | publish | retain | recv | stopReconstructor | drain | client =>
      exact ⟨actions, hmetrics, haccessory, hadded⟩
  | accessory =>
      refine ⟨actions ++ [.accessory], ?_, ?_, ?_⟩
      · rw [hconcat, ← hmetrics, ← haccessory]
        rfl
      · rw [hconcat, ← hmetrics, ← haccessory]
        rfl
      · rw [hconcat]
        exact hadded
  | @op i t f op ops =>
      cases op with
      | fetchAdd c n =>
          refine ⟨actions ++ [.fetchAdd c n], ?_, ?_, ?_⟩
          · rw [hconcat]
            exact congrArg (·.fetchAdd c n) hmetrics
          · rw [hconcat]
            exact haccessory
          · intro c'
            rw [hconcat]
            simp only [TallyRun.step, Tally.step, adds, setForwarder, exec, effect,
              List.filterMap_append, added_append]
            by_cases hc : c' = c
            · subst hc
              simpa [ForwardOp.add, adds] using hadded c'
            · simpa [ForwardOp.add, adds, hc, Ne.symm hc] using hadded c'
      | trySend packetBatch =>
          refine ⟨actions, ?_, ?_, ?_⟩
          · rw [hmetrics]
            simp only [setForwarder, exec, effect, trySend]
            cases p.reconstructRx.send packetBatch <;> rfl
          · rw [haccessory, exec_eq]
            rfl
          · intro c
            rw [hadded c]
            simp [adds, setForwarder, exec_eq, ForwardOp.add]
      | storeStats packet =>
          exact ⟨actions, hmetrics, haccessory, fun c => by
            rw [hadded c]; simp [adds, setForwarder, exec, effect, ForwardOp.add]⟩
      | batchSend destination packetsWithDest =>
          exact ⟨actions, hmetrics, haccessory, fun c => by
            rw [hadded c]; simp [adds, setForwarder, exec, effect, ForwardOp.add]⟩

/-- What an operation adds to a counter. -/
def counterWeight (c : Counter) (op : ForwardOp) : Nat :=
  added c op.add.toList

/-- The operations of a call weigh for a counter what they add to it. -/
theorem sum_counterWeight (c : Counter) (ops : List ForwardOp) :
    (ops.map (counterWeight c)).sum = added c (ops.filterMap ForwardOp.add) := by
  induction ops with
  | nil => rfl
  | cons op ops ih =>
      rw [List.map_cons, List.sum_cons, ih, counterWeight]
      cases hop : op.add <;> simp [hop]

end Proxy

/-- What a call adds to a cumulative counter, in the end. -/
def Cumulative.total (f : Forwarding) : Cumulative → Nat
  | .aggReceivedCumulative => f.numPackets
  | .aggSuccessForwardCumulative => f.numOk * f.numLeft
  | .aggFailForwardCumulative => f.numErr * f.numLeft
  | .duplicateCumulative =>
      (f.localDestSockets.map fun s =>
        if s.result = .ok then f.numDeduped.toNat else s.result.numFailed).sum

/-- What a call adds to the counter behind a cumulative one. -/
theorem Cumulative.added_source (k : Cumulative) (decode : Bytes → Option TraceShred)
    (toSystemTime : Timestamp → Option SystemTime) (packetsReceived : PacketsReceived)
    (f : Forwarding) :
    added k.source (f.forward decode toSystemTime packetsReceived).adds = k.total f := by
  cases k with
  | aggReceivedCumulative => exact f.added_received decode toSystemTime packetsReceived
  | aggSuccessForwardCumulative => exact f.added_successForward decode toSystemTime packetsReceived
  | aggFailForwardCumulative => exact f.added_failForward decode toSystemTime packetsReceived
  | duplicateCumulative => exact f.added_duplicate decode toSystemTime packetsReceived

namespace Proxy

variable {cfg : ProxyConfig} {p : Proxy} {events : List ProxyEvent}

/-- What the calls in progress will still add to a counter. -/
def inFlight (p : Proxy) (c : Counter) : Nat :=
  pendingWeight (counterWeight c) p

/-- What was added to a counter, and what is in flight, is what the calls add. -/
theorem added_add_inFlight (h : run cfg events = some p) (k : Cumulative) :
    added k.source p.adds + p.inFlight k.source = ((allCalls events).map k.total).sum := by
  have hcalls : callsWeight (counterWeight k.source) (allCalls events) =
      ((allCalls events).map k.total).sum := by
    unfold callsWeight
    congr 1
    apply List.map_congr_left
    intro f _
    rw [sum_counterWeight, Forwarding.adds_ops cfg.decode cfg.toSystemTime (fun _ => none),
      Cumulative.added_source]
  have hexecuted : executedWeight (counterWeight k.source) p = added k.source p.adds := by
    have hsum := sum_counterWeight k.source (p.executed.map Prod.snd)
    rw [List.map_map, List.filterMap_map] at hsum
    exact hsum
  rw [← hcalls, ← weight_conserved _ h, hexecuted]
  rfl

/-- The counters and what a reset holds make up the additions so far. -/
theorem metrics_total (h : run cfg events = some p) (k : Cumulative) :
    p.metrics.cumulative k + p.metrics.current k.source + p.accessory.held k =
      UInt64.ofNat (added k.source p.adds) := by
  rcases exists_actions h with ⟨actions, hmetrics, haccessory, hadded⟩
  have htotal := (TallyRun.conserves_run cfg.shouldReconstructShreds actions).total k
  rw [hmetrics, haccessory, hadded] at htotal
  exact htotal

/-- The accessory thread has nothing to do outside of its rounds. -/
theorem reporting_or_idle (h : run cfg events = some p) :
    p.accessoryStage = .reporting ∨ p.accessory.program = [] := by
  refine run_induction (I := fun _ p => p.accessoryStage = .reporting ∨ p.accessory.program = [])
    (Or.inr rfl) ?_ h
  intro past p e p' _ hI hstep
  cases hstep with
  | control _ _ _ _ _ _ _ _ _ hreported => exact hI.elim hreported Or.inr
  | accessory _ hstage => exact Or.inl hstage
  | op => rw [exec_eq]; exact hI
  | thread | publish | retain | recv | stopReconstructor | drain | client => exact hI

end Proxy

open Proxy

/-- In every interleaving and at any time, a cumulative counter, its current counter, what a reset
holds and what the calls in progress will still add make up what all calls add, in the width of the
counters: the packets of their batches, and the packets left times the destinations. -/
theorem totals_conserved (cfg : ProxyConfig) (events : List ProxyEvent) (p : Proxy)
    (h : Proxy.run cfg events = some p) (k : Cumulative) :
    p.metrics.cumulative k + p.metrics.current k.source + p.accessory.held k +
        UInt64.ofNat (p.inFlight k.source) =
      UInt64.ofNat ((allCalls events).map k.total).sum := by
  rw [metrics_total h, ← UInt64.ofNat_add, added_add_inFlight h]

/-- A call to two destinations whose packet waits in the current counter. -/
theorem totals_conserved_sample :
    ∃ p, Proxy.run Sample.proxyConfig Sample.forwardEvents = some p ∧
      p.metrics.current .successForward = 2 ∧
      p.metrics.cumulative .aggSuccessForwardCumulative +
          p.metrics.current .successForward +
          p.accessory.held .aggSuccessForwardCumulative +
          UInt64.ofNat (p.inFlight .successForward) =
        UInt64.ofNat
          ((allCalls Sample.forwardEvents).map
            Cumulative.aggSuccessForwardCumulative.total).sum := by
  refine ⟨_, rfl, by decide, ?_⟩
  exact totals_conserved Sample.proxyConfig Sample.forwardEvents _ rfl .aggSuccessForwardCumulative

/-- When the threads have stopped, what the proxy logs at its exit lacks exactly what came after the
last reset and is still in the current counter. -/
theorem exit_totals (cfg : ProxyConfig) (events : List ProxyEvent) (p : Proxy)
    (h : Proxy.run cfg events = some p) (hforwarders : ∀ t ∈ p.forwarders, t.stage = .stopped)
    (haccessory : p.accessoryStage = .stopped) (k : Cumulative) :
    p.metrics.cumulative k =
      UInt64.ofNat ((allCalls events).map k.total).sum - p.metrics.current k.source := by
  have htotal := metrics_total h k
  have hidle : p.accessory.program = [] :=
    (reporting_or_idle h).resolve_left (by simp [haccessory])
  have hheld : p.accessory.held k = 0 := Accessory.held_of_ne (by simp [hidle])
  have hflight : p.inFlight k.source = 0 := by
    unfold inFlight pendingWeight
    apply List.sum_eq_zero
    intro n hn
    rcases List.mem_map.mp hn with ⟨t, ht, rfl⟩
    simp [ForwarderThread.pending, hforwarders t ht]
  have hcalls := added_add_inFlight h k
  rw [hflight, Nat.add_zero] at hcalls
  rw [hheld, UInt64.add_zero, hcalls] at htotal
  rw [← htotal, UInt64.add_sub_cancel]

/-- A batch is forwarded, and then a signal stops the threads. -/
def Sample.exitEvents : List ProxyEvent :=
  forwardEvents ++ [.signal, .forwarder 0 .check, .accessory .check]

/-- A run that ends before a reset, so that the log misses the packet. -/
theorem exit_totals_sample :
    ∃ p, Proxy.run Sample.proxyConfig Sample.exitEvents = some p ∧
      (∀ t ∈ p.forwarders, t.stage = .stopped) ∧ p.accessoryStage = .stopped ∧
      p.metrics.cumulative .aggReceivedCumulative = 0 ∧
      p.metrics.cumulative .aggReceivedCumulative =
        UInt64.ofNat
            ((allCalls Sample.exitEvents).map Cumulative.aggReceivedCumulative.total).sum -
          p.metrics.current .received := by
  have hrun : ∃ p, Proxy.run Sample.proxyConfig Sample.exitEvents = some p ∧
      p.forwarders.map ForwarderThread.stage = [.stopped] ∧ p.accessoryStage = .stopped ∧
      p.metrics.cumulative .aggReceivedCumulative = 0 :=
    ⟨_, rfl, rfl, rfl, rfl⟩
  rcases hrun with ⟨p, hp, hstages, haccessory, hcumulative⟩
  have hstopped : ∀ t ∈ p.forwarders, t.stage = .stopped := by
    intro t ht
    have hmem := List.mem_map_of_mem (f := ForwarderThread.stage) ht
    rw [hstages] at hmem
    exact List.mem_singleton.mp hmem
  exact ⟨p, hp, hstopped, haccessory, hcumulative,
    exit_totals Sample.proxyConfig Sample.exitEvents p hp hstopped haccessory
      .aggReceivedCumulative⟩

/-! ## Sources -/

/-- The number of discarded packets, or of the others. -/
def countOf (discard : Bool) (counts : UInt64 × UInt64) : UInt64 :=
  if discard then counts.1 else counts.2

/-- What the table holds for a source. -/
def PacketsReceived.held (r : PacketsReceived) (addr : IpAddr) (discard : Bool) : UInt64 :=
  (r addr).elim 0 (countOf discard)

/-- Storing a packet counts it for its own source. -/
theorem PacketsReceived.held_storeStats (r : PacketsReceived) (packet : SourcedPacket)
    (addr : IpAddr) (discard : Bool) :
    PacketsReceived.held (storeStats r packet) addr discard =
      PacketsReceived.held r addr discard +
        UInt64.ofNat (if packet.addr = addr ∧ packet.discard = discard then 1 else 0) := by
  unfold held storeStats
  by_cases haddr : packet.addr = addr
  · subst haddr
    rw [Function.update_self]
    cases r packet.addr <;> cases packet.discard <;> cases discard <;> simp [countOf]
  · rw [Function.update_of_ne (Ne.symm haddr)]
    simp [haddr]

namespace Proxy

variable {cfg : ProxyConfig} {p : Proxy} {events : List ProxyEvent}

/-- What was reported for a source so far. -/
def reportedFor (p : Proxy) (addr : IpAddr) (discard : Bool) : UInt64 :=
  ((p.receiverStats.filter fun r => r.addr = addr).map fun r =>
    countOf discard (r.discardedPackets, r.notDiscardedPackets)).sum

/-- What an operation counts for a source. -/
def sourceWeight (addr : IpAddr) (discard : Bool) (op : ForwardOp) : Nat :=
  (op.stat.toList.countP fun packet => packet.addr = addr ∧ packet.discard = discard)

/-- The operations of a call weigh for a source what they store for it. -/
theorem sum_sourceWeight (addr : IpAddr) (discard : Bool) (ops : List ForwardOp) :
    (ops.map (sourceWeight addr discard)).sum = (ops.filterMap ForwardOp.stat).countP
      fun packet => packet.addr = addr ∧ packet.discard = discard := by
  induction ops with
  | nil => rfl
  | cons op ops ih =>
      rw [List.map_cons, List.sum_cons, ih, sourceWeight]
      cases hop : op.stat <;> simp [hop, List.countP_cons, Nat.add_comm]

/-- Reporting the entry of a source takes nothing away from it. -/
theorem reportedFor_add_held (h : run cfg events = some p) (addr : IpAddr) (discard : Bool) :
    p.reportedFor addr discard + PacketsReceived.held p.packetsReceived addr discard =
      UInt64.ofNat (executedWeight (sourceWeight addr discard) p) := by
  refine run_induction (I := fun _ p =>
    p.reportedFor addr discard + PacketsReceived.held p.packetsReceived addr discard =
      UInt64.ofNat (executedWeight (sourceWeight addr discard) p)) rfl ?_ h
  intro past p e p' _ hI hstep
  cases hstep with
  | control | thread | publish | accessory | recv | stopReconstructor | drain | client => exact hI
  | @retain addr' counts hcounts =>
      by_cases haddr : addr' = addr
      · subst haddr
        rw [PacketsReceived.held, hcounts] at hI
        simpa [reportedFor, executedWeight, PacketsReceived.held] using hI
      · rw [PacketsReceived.held] at hI
        simpa [reportedFor, executedWeight, PacketsReceived.held, haddr, Ne.symm haddr] using hI
  | @op i t f op ops =>
      have hlast : executedWeight (sourceWeight addr discard) (p.exec i op) =
          executedWeight (sourceWeight addr discard) p + sourceWeight addr discard op := by
        simp [executedWeight, exec_eq]
      have hreported : (p.exec i op).reportedFor addr discard = p.reportedFor addr discard := by
        simp only [reportedFor, exec_eq]
      change (p.exec i op).reportedFor addr discard +
        PacketsReceived.held (p.exec i op).packetsReceived addr discard =
          UInt64.ofNat (executedWeight (sourceWeight addr discard) (p.exec i op))
      rw [hlast, hreported, UInt64.ofNat_add, ← hI]
      cases op with
      | storeStats packet =>
          simp only [exec, effect, PacketsReceived.held_storeStats, UInt64.add_assoc]
          simp [sourceWeight, ForwardOp.stat, List.countP_cons]
      | trySend packetBatch =>
          simp only [exec, effect, trySend, sourceWeight, ForwardOp.stat]
          cases p.reconstructRx.send packetBatch <;> simp
      | fetchAdd c n => simp [exec, effect, sourceWeight, ForwardOp.stat]
      | batchSend destination packetsWithDest => simp [exec, effect, sourceWeight, ForwardOp.stat]

end Proxy

/-- In every interleaving and at any time, what was reported for a source, what the table holds for
it and what the calls in progress will still count make up its packets in all batches, the discarded
ones and the others.  The accessory thread never drops a count, whenever it clears the table. -/
theorem sources_conserved (cfg : ProxyConfig) (events : List ProxyEvent) (p : Proxy)
    (h : Proxy.run cfg events = some p) (addr : IpAddr) (discard : Bool) :
    p.reportedFor addr discard + PacketsReceived.held p.packetsReceived addr discard +
        UInt64.ofNat (pendingWeight (sourceWeight addr discard) p) =
      UInt64.ofNat ((allCalls events).map fun f =>
        f.deduped.countP fun packet => packet.addr = addr ∧ packet.discard = discard).sum := by
  rw [reportedFor_add_held h, ← UInt64.ofNat_add, weight_conserved _ h]
  simp only [callsWeight, sum_sourceWeight, Forwarding.stats_ops]

/-- A batch is forwarded, and the accessory thread reports its source. -/
def Sample.sourceEvents : List ProxyEvent :=
  forwardEvents ++ [.accessory .check, .accessory .metricsTick] ++
    List.replicate 17 (.accessory .op) ++ [.accessory (.retain (.v4 7))]

/-- A packet whose source was reported. -/
theorem sources_conserved_sample :
    ∃ p, Proxy.run Sample.proxyConfig Sample.sourceEvents = some p ∧
      p.reportedFor (.v4 7) false = 1 ∧
      p.reportedFor (.v4 7) false + PacketsReceived.held p.packetsReceived (.v4 7) false +
          UInt64.ofNat (pendingWeight (sourceWeight (.v4 7) false) p) =
        UInt64.ofNat ((allCalls Sample.sourceEvents).map fun f =>
          f.deduped.countP fun packet => packet.addr = .v4 7 ∧ packet.discard = false).sum := by
  refine ⟨_, rfl, by decide, ?_⟩
  exact sources_conserved Sample.proxyConfig Sample.sourceEvents _ rfl (.v4 7) false

end ShredstreamProxy
