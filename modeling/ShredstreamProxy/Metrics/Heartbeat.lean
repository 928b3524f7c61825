import ShredstreamProxy.Metrics.Counters

/-!
# The heartbeat loop

The thread that keeps the subscription alive: it connects a client, sends heartbeats, and at
every metrics tick compares the cumulative number of received shreds with the number it saw
at the tick before.  This module embeds the loop as a state machine that is driven by
everything it waits for, and puts it beside the threads that count packets.

Main definitions:

- {lit}`HeartbeatLoop`: the local variables of the loop and where it stands.
- {lit}`HeartbeatLoop.metricsTick`: the branch that may restart the client.
- {lit}`System`: the counters, the accessory thread and the heartbeat loop.
- {lit}`System.step`: one step of any thread; a run is any sequence of them.
- Theorem {lit}`System.step_heartbeat`: what the steps of the heartbeat loop leave alone.
-/

namespace ShredstreamProxy

/-- Where the heartbeat loop stands. -/
inductive HeartbeatPhase where
  /-- In the outer loop, about to create a client. -/
  | connecting
  /-- In the inner loop, waiting for the next event. -/
  | connected
  | exited
  | panicked
deriving DecidableEq

/-- The answer to a heartbeat. -/
inductive HeartbeatResult where
  | ok (ttlMs : Nat)
  | invalidArgument
  | error
deriving DecidableEq

/-- The heartbeat loop and its local variables. -/
structure HeartbeatLoop where
  phase : HeartbeatPhase
  heartbeatIntervalMs : Nat
  lastCumulativeReceivedShredCount : UInt64
  clientRestartCount : UInt64
  successfulHeartbeatCount : UInt64
  failedHeartbeatCount : UInt64
  clientRestartCountCumulative : UInt64
  successfulHeartbeatCountCumulative : UInt64
  failedHeartbeatCountCumulative : UInt64
deriving DecidableEq

def HeartbeatLoop.initial : HeartbeatLoop where
  phase := .connecting
  heartbeatIntervalMs := 1000
  lastCumulativeReceivedShredCount := 0
  clientRestartCount := 0
  successfulHeartbeatCount := 0
  failedHeartbeatCount := 0
  clientRestartCountCumulative := 0
  successfulHeartbeatCountCumulative := 0
  failedHeartbeatCountCumulative := 0

namespace HeartbeatLoop

/-- The loop tries to create a client; after a failure it tries again. -/
def connect (h : HeartbeatLoop) (connected : Bool) : HeartbeatLoop :=
  if connected then { h with phase := .connected }
  else { h with clientRestartCount := h.clientRestartCount + 1 }

/-- The loop sent a heartbeat. -/
def heartbeat (h : HeartbeatLoop) : HeartbeatResult → HeartbeatLoop
  | .ok ttlMs =>
      { h with
        heartbeatIntervalMs := ttlMs / 3
        successfulHeartbeatCount := h.successfulHeartbeatCount + 1 }
  | .invalidArgument => { h with phase := .panicked }
  | .error => { h with failedHeartbeatCount := h.failedHeartbeatCount + 1 }

/-- The loop would restart its client for the given cumulative count. -/
def restarts (h : HeartbeatLoop) (newReceivedCount : UInt64) : Bool :=
  newReceivedCount == h.lastCumulativeReceivedShredCount

/-- A metrics tick: restart the client if the cumulative count has not changed, otherwise
remember it and fold the heartbeat counts into their totals. -/
def metricsTick (h : HeartbeatLoop) (newReceivedCount : UInt64) : HeartbeatLoop :=
  if h.restarts newReceivedCount then { h with phase := .connecting }
  else
    { h with
      lastCumulativeReceivedShredCount := newReceivedCount
      successfulHeartbeatCountCumulative :=
        h.successfulHeartbeatCountCumulative + h.successfulHeartbeatCount
      failedHeartbeatCountCumulative := h.failedHeartbeatCountCumulative + h.failedHeartbeatCount
      clientRestartCountCumulative := h.clientRestartCountCumulative + h.clientRestartCount
      successfulHeartbeatCount := 0
      failedHeartbeatCount := 0
      clientRestartCount := 0 }

end HeartbeatLoop

/-! ## All threads together -/

/-- The threads that count packets and watch the counts. -/
structure System where
  metrics : ShredMetrics
  accessory : Accessory
  heartbeat : HeartbeatLoop

/-- One step of some thread. -/
inductive Action where
  /-- A forwarder or reconstructor thread adds to a counter. -/
  | fetchAdd (c : Counter) (n : UInt64)
  /-- The accessory thread executes its next atomic operation. -/
  | accessory
  /-- The heartbeat loop gets a client, or fails to. -/
  | connect (connected : Bool)
  /-- The heartbeat loop gets the answer to a heartbeat. -/
  | heartbeat (result : HeartbeatResult)
  /-- The heartbeat loop takes a metrics tick. -/
  | metricsTick
  /-- The heartbeat loop takes the shutdown signal. -/
  | shutdown
  /-- The heartbeat loop finds the exit flag set. -/
  | exit
deriving DecidableEq

namespace System

def initial (enabledGrpcService : Bool) : System :=
  ⟨ShredMetrics.new enabledGrpcService, Accessory.initial, HeartbeatLoop.initial⟩

/-- One step.  The heartbeat loop only reacts to what it waits for where it stands. -/
def step (s : System) : Action → System
  | .fetchAdd c n => { s with metrics := s.metrics.fetchAdd c n }
  | .accessory =>
      { s with
        accessory := (s.accessory.step s.metrics).1
        metrics := (s.accessory.step s.metrics).2 }
  | .connect connected =>
      if s.heartbeat.phase = .connecting then { s with heartbeat := s.heartbeat.connect connected }
      else s
  | .heartbeat result =>
      if s.heartbeat.phase = .connected then { s with heartbeat := s.heartbeat.heartbeat result }
      else s
  | .metricsTick =>
      if s.heartbeat.phase = .connected then
        { s with
          heartbeat := s.heartbeat.metricsTick (s.metrics.cumulative .aggReceivedCumulative) }
      else s
  | .shutdown =>
      -- the signal only leaves the inner loop; the outer loop tests the exit flag
      if s.heartbeat.phase = .connected then
        { s with heartbeat := { s.heartbeat with phase := .connecting } }
      else s
  | .exit =>
      if s.heartbeat.phase = .connecting ∨ s.heartbeat.phase = .connected then
        { s with heartbeat := { s.heartbeat with phase := .exited } }
      else s

/-- Steps other than the atomic operations on counters concern the heartbeat loop only, and only a
metrics tick touches the count that the loop remembers. -/
theorem step_heartbeat (s : System) {a : Action} (hadd : ∀ c n, a ≠ .fetchAdd c n)
    (haccessory : a ≠ .accessory) :
    ∃ loop, s.step a = { s with heartbeat := loop } ∧
      (a ≠ .metricsTick → loop.lastCumulativeReceivedShredCount =
        s.heartbeat.lastCumulativeReceivedShredCount) := by
  cases a with
  | fetchAdd c n => exact absurd rfl (hadd c n)
  | accessory => exact absurd rfl haccessory
  | connect connected =>
      simp only [step]
      split
      · refine ⟨_, rfl, fun _ => ?_⟩
        cases connected <;> rfl
      · exact ⟨_, rfl, fun _ => rfl⟩
  | heartbeat result =>
      simp only [step]
      split
      · refine ⟨_, rfl, fun _ => ?_⟩
        cases result <;> rfl
      · exact ⟨_, rfl, fun _ => rfl⟩
  | metricsTick =>
      simp only [step]
      split
      · exact ⟨_, rfl, fun h => absurd rfl h⟩
      · exact ⟨_, rfl, fun _ => rfl⟩
  | shutdown | exit =>
      simp only [step]
      split
      · exact ⟨_, rfl, fun _ => rfl⟩
      · exact ⟨_, rfl, fun _ => rfl⟩

/-- A metrics tick would be taken, and would restart the client. -/
def RestartsAtTick (s : System) : Prop :=
  s.heartbeat.phase = .connected ∧
    s.heartbeat.restarts (s.metrics.cumulative .aggReceivedCumulative) = true

instance (s : System) : Decidable s.RestartsAtTick :=
  inferInstanceAs (Decidable (_ ∧ _))

end System

end ShredstreamProxy
