import ShredstreamProxy.Lib.EventRun
import ShredstreamProxy.Metrics.Heartbeat

/-!
# The heartbeat loops and the events that drive them

Two loops keep a subscription alive.  The first one, {lit}`HeartbeatLoop`, also watches the number
of received shreds; the second one, {lit}`SubscribeOnlyLoop`, only sends heartbeats, and restarts
its client when too many of them fail on one connection.  Here both are machines that are driven by
the same events: what the network answers, ticks, the shutdown signal and the exit flag.

Main definitions:

- {lit}`HeartbeatEvent`: what a loop waits for.
- {lit}`HeartbeatLoop.step` and {lit}`SubscribeOnlyLoop.step`: one event of each loop.

Main results:

- Theorem {lit}`System.step_of_event`: the steps of the heartbeat loop beside the other threads are
  the steps of the loop alone.
- Theorem {lit}`System.exists_run`: so whatever the threads do, the loop has made one of its runs.
-/

namespace ShredstreamProxy

/-- What a heartbeat loop waits for. -/
inductive HeartbeatEvent where
  /-- The attempt to build a client succeeds or fails. -/
  | connect (connected : Bool)
  /-- The answer to a heartbeat. -/
  | heartbeat (result : HeartbeatResult)
  /-- A metrics tick, with the cumulative number of received shreds at that time. -/
  | metricsTick (newReceivedCount : UInt64)
  /-- The shutdown signal. -/
  | shutdown
  /-- The loop finds the exit flag set. -/
  | exit
deriving DecidableEq

namespace HeartbeatLoop

/-- One event.  The loop only takes the events it waits for where it stands. -/
def step (h : HeartbeatLoop) : HeartbeatEvent → Option HeartbeatLoop
  | .connect connected => if h.phase = .connecting then some (h.connect connected) else none
  | .heartbeat result => if h.phase = .connected then some (h.heartbeat result) else none
  | .metricsTick newReceivedCount =>
      if h.phase = .connected then some (h.metricsTick newReceivedCount) else none
  | .shutdown =>
      -- the signal only leaves the inner loop; the outer loop tests the exit flag
      if h.phase = .connected then some { h with phase := .connecting } else none
  | .exit =>
      if h.phase = .connecting ∨ h.phase = .connected then some { h with phase := .exited }
      else none

/-- The loop after some events. -/
def run (events : List HeartbeatEvent) : Option HeartbeatLoop :=
  EventRun.run step initial events

end HeartbeatLoop

/-! ## The loop of the subscribe-only mode -/

/-- The heartbeat loop of the subscribe-only mode and its local variables.  The counts of
heartbeats that are not totals belong to one connection. -/
structure SubscribeOnlyLoop where
  phase : HeartbeatPhase
  heartbeatIntervalMs : Nat
  successfulHeartbeatCount : UInt64
  failedHeartbeatCount : UInt64
  clientRestartCountCumulative : UInt64
  successfulHeartbeatCountCumulative : UInt64
  failedHeartbeatCountCumulative : UInt64
deriving DecidableEq

namespace SubscribeOnlyLoop

def initial : SubscribeOnlyLoop where
  phase := .connecting
  heartbeatIntervalMs := 1000
  successfulHeartbeatCount := 0
  failedHeartbeatCount := 0
  clientRestartCountCumulative := 0
  successfulHeartbeatCountCumulative := 0
  failedHeartbeatCountCumulative := 0

/-- The loop tries to create a client; a connection starts with new counts. -/
def connect (l : SubscribeOnlyLoop) (connected : Bool) : SubscribeOnlyLoop :=
  if connected then
    { l with phase := .connected, successfulHeartbeatCount := 0, failedHeartbeatCount := 0 }
  else { l with clientRestartCountCumulative := l.clientRestartCountCumulative + 1 }

/-- Leave the inner loop: the counts of the connection are added to the totals. -/
def leave (l : SubscribeOnlyLoop) (phase : HeartbeatPhase) : SubscribeOnlyLoop :=
  { l with
    phase
    successfulHeartbeatCountCumulative :=
      l.successfulHeartbeatCountCumulative + l.successfulHeartbeatCount
    failedHeartbeatCountCumulative := l.failedHeartbeatCountCumulative + l.failedHeartbeatCount }

/-- The loop sent a heartbeat; it leaves a connection on which more than five have failed. -/
def heartbeat (l : SubscribeOnlyLoop) : HeartbeatResult → SubscribeOnlyLoop
  | .ok ttlMs =>
      { l with
        heartbeatIntervalMs := ttlMs / 3
        successfulHeartbeatCount := l.successfulHeartbeatCount + 1 }
  | .invalidArgument => { l with phase := .panicked }
  | .error =>
      let l := { l with failedHeartbeatCount := l.failedHeartbeatCount + 1 }
      if l.failedHeartbeatCount > 5 then l.leave .connecting else l

/-- One event.  The loop does not wait for metrics ticks. -/
def step (l : SubscribeOnlyLoop) : HeartbeatEvent → Option SubscribeOnlyLoop
  | .connect connected => if l.phase = .connecting then some (l.connect connected) else none
  | .heartbeat result => if l.phase = .connected then some (l.heartbeat result) else none
  | .metricsTick _ => none
  | .shutdown => if l.phase = .connected then some (l.leave .connecting) else none
  | .exit =>
      if l.phase = .connecting then some { l with phase := .exited }
      else if l.phase = .connected then some (l.leave .exited)
      else none

/-- The loop after some events. -/
def run (events : List HeartbeatEvent) : Option SubscribeOnlyLoop :=
  EventRun.run step initial events

end SubscribeOnlyLoop

/-! ## The loop beside the other threads -/

namespace System

/-- What the heartbeat loop sees of a step of the system. -/
def event (s : System) : Action → Option HeartbeatEvent
  | .fetchAdd _ _ => none
  | .accessory => none
  | .connect connected => some (.connect connected)
  | .heartbeat result => some (.heartbeat result)
  | .metricsTick => some (.metricsTick (s.metrics.cumulative .aggReceivedCumulative))
  | .shutdown => some .shutdown
  | .exit => some .exit

/-- What is no event of the heartbeat loop leaves it alone. -/
theorem heartbeat_of_event_none {s : System} {a : Action} (h : s.event a = none) :
    (s.step a).heartbeat = s.heartbeat := by
  cases a with
  | fetchAdd c n | accessory => rfl
  | connect _ | heartbeat _ | metricsTick | shutdown | exit => nomatch h

/-- A step that is an event for the heartbeat loop is the step of the loop, if it takes the event,
and nothing otherwise. -/
theorem step_of_event {s : System} {a : Action} {e : HeartbeatEvent} (h : s.event a = some e) :
    s.step a = { s with heartbeat := (s.heartbeat.step e).getD s.heartbeat } := by
  cases a with
  | fetchAdd c n | accessory => nomatch h
  | connect _ | heartbeat _ | metricsTick | shutdown | exit =>
      obtain rfl := Option.some.inj h
      simp only [step, HeartbeatLoop.step]
      split <;> rfl

/-- Whatever the threads do, the heartbeat loop has taken some events. -/
theorem exists_run (enabledGrpcService : Bool) (actions : List Action) :
    ∃ events, HeartbeatLoop.run events =
      some (actions.foldl step (initial enabledGrpcService)).heartbeat := by
  induction actions using List.reverseRecOn with
  | nil => exact ⟨[], rfl⟩
  | append_singleton actions a ih =>
      rcases ih with ⟨events, hrun⟩
      rw [List.foldl_append, List.foldl_cons, List.foldl_nil]
      generalize actions.foldl step (initial enabledGrpcService) = s at *
      cases hevent : s.event a with
      | none => exact ⟨events, by rw [heartbeat_of_event_none hevent, hrun]⟩
      | some e =>
          rw [step_of_event hevent]
          cases hstep : s.heartbeat.step e with
          | none => exact ⟨events, hrun⟩
          | some loop =>
              exact ⟨events ++ [e], EventRun.run_concat_eq_some_iff.mpr ⟨_, hrun, hstep⟩⟩

end System

end ShredstreamProxy
