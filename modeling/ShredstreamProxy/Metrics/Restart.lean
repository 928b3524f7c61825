import ShredstreamProxy.Metrics.Heartbeat

/-!
# When the heartbeat loop restarts its client

The heartbeat loop looks at the cumulative counter, which only grows when the accessory thread
publishes what it swapped out of the current counter.  Counting packets without wrapping gives
an account of every run: how many packets wait in the current counter, how many are on their
way to the cumulative counter, and how many were counted and published since the last metrics
tick.  The counters are this account modulo their width, and a tick restarts the client exactly
when nothing was published, whatever was counted.

Main results:

- Theorem {lit}`Account.Matches.step`: the counters keep to the account.
- Theorem {lit}`restartsAtTick_iff`: a tick restarts the client when nothing was published.
- Theorem {lit}`restarts_only_when_idle_iff`: when restarts mean that no packet was counted.
- Theorem {lit}`restart_after_packet`: a run in which they do not.
-/

namespace ShredstreamProxy

/-- An account of the packets of a run. -/
structure Account where
  /-- Packets counted since the last metrics tick. -/
  counted : Nat
  /-- Packets that wait in the current counter. -/
  waiting : Nat
  /-- Packets that were swapped out of the current counter but not published yet. -/
  inFlight : Nat
  /-- Packets published since the last metrics tick. -/
  published : Nat
deriving DecidableEq

namespace Account

def initial : Account := ⟨0, 0, 0, 0⟩

/-- What the next operation of the accessory thread does to the account. -/
def accessory (acc : Account) (program : List Instr) : Account :=
  if program.head? = some (.swap .received) then
    { acc with waiting := 0, inFlight := acc.waiting }
  else if program.head? = some (.publish .aggReceivedCumulative) then
    { acc with inFlight := 0, published := acc.published + acc.inFlight }
  else acc

/-- What a step does to the account. -/
def step (acc : Account) (s : System) : Action → Account
  | .fetchAdd c n =>
      if c = .received then
        { acc with counted := acc.counted + n.toNat, waiting := acc.waiting + n.toNat }
      else acc
  | .accessory => acc.accessory s.accessory.program
  | .metricsTick =>
      if s.heartbeat.phase = .connected then { acc with counted := 0, published := 0 } else acc
  | _ => acc

end Account

/-- The system after some steps, with the account of them. -/
structure MetricsRun where
  system : System
  account : Account

namespace MetricsRun

def initial (enabledGrpcService : Bool) : MetricsRun :=
  ⟨System.initial enabledGrpcService, Account.initial⟩

def step (r : MetricsRun) (a : Action) : MetricsRun :=
  ⟨r.system.step a, r.account.step r.system a⟩

/-- The run of a sequence of steps of the threads, in any interleaving. -/
def run (enabledGrpcService : Bool) (actions : List Action) : MetricsRun :=
  actions.foldl step (initial enabledGrpcService)

end MetricsRun

/-! ## The counters keep to the account -/

/-- The counters hold the account modulo their width. -/
structure Account.Matches (acc : Account) (s : System) : Prop where
  onTrack : OnTrack s.accessory.program
  received : s.metrics.current .received = UInt64.ofNat acc.waiting
  register : ∀ rest, s.accessory.program = .publish .aggReceivedCumulative :: rest →
    s.accessory.register = UInt64.ofNat acc.inFlight
  cumulative : s.metrics.cumulative .aggReceivedCumulative =
    s.heartbeat.lastCumulativeReceivedShredCount + UInt64.ofNat acc.published

theorem Account.matches_initial (enabledGrpcService : Bool) :
    Account.initial.Matches (System.initial enabledGrpcService) where
  onTrack := onTrack_initial
  received := rfl
  register := fun _ h => nomatch h
  cumulative := rfl

variable {acc : Account} {s : System}

/-- Counting packets keeps the counters at the account. -/
theorem Account.Matches.fetchAdd (h : acc.Matches s) (c : Counter) (n : UInt64) :
    (acc.step s (.fetchAdd c n)).Matches (s.step (.fetchAdd c n)) := by
  by_cases hc : c = .received
  · subst hc
    simp only [Account.step, System.step, if_true]
    refine ⟨h.onTrack, ?_, h.register, h.cumulative⟩
    simp [h.received]
  · simp only [Account.step, System.step, if_neg hc]
    refine ⟨h.onTrack, ?_, h.register, h.cumulative⟩
    simp [Ne.symm hc, h.received]

/-- An operation of the accessory thread keeps the counters at the account. -/
theorem Account.Matches.accessory (h : acc.Matches s) :
    (acc.step s .accessory).Matches (s.step .accessory) := by
  have hstep := h.onTrack.step s.metrics
  rcases Accessory.step_cases h.onTrack s.metrics .aggReceivedCumulative with
    hquiet | ⟨rest, hprogram, heq⟩ | ⟨rest, hprogram, hpaired, heq⟩
  · have hswap : s.accessory.program.head? ≠ some (.swap .received) := hquiet.not_swap
    have hsame : acc.accessory s.accessory.program = acc := by
      unfold Account.accessory
      rw [if_neg hswap, if_neg hquiet.not_publish]
    simp only [Account.step, System.step, hsame]
    refine ⟨hstep, ?_, fun rest hrest => absurd hrest (hquiet.not_due rest), ?_⟩
    · exact hquiet.current.trans h.received
    · exact hquiet.cumulative.trans h.cumulative
  · -- the packets leave the current counter for the register
    rw [heq] at hstep
    have hacc : acc.accessory s.accessory.program =
        { acc with waiting := 0, inFlight := acc.waiting } := by
      rw [hprogram]
      exact if_pos rfl
    simp only [Account.step, System.step, hacc, heq]
    refine ⟨hstep, ?_, fun _ _ => h.received, ?_⟩
    · simp [Cumulative.source]
    · simpa using h.cumulative
  · -- the packets leave the register for the cumulative counter
    rw [heq] at hstep
    have hacc : acc.accessory s.accessory.program =
        { acc with inFlight := 0, published := acc.published + acc.inFlight } := by
      unfold Account.accessory
      rw [hprogram, if_neg (by simp)]
      exact if_pos rfl
    simp only [Account.step, System.step, hacc, heq]
    refine ⟨hstep, ?_, fun rest' hrest => absurd hrest (not_publish_of_paired hpaired _ rest'), ?_⟩
    · simpa using h.received
    · simp [h.cumulative, h.register rest hprogram, UInt64.add_assoc]

/-- A metrics tick starts a new interval. -/
theorem Account.Matches.metricsTick (h : acc.Matches s) :
    (acc.step s .metricsTick).Matches (s.step .metricsTick) := by
  by_cases hphase : s.heartbeat.phase = .connected
  · simp only [Account.step, System.step, if_pos hphase]
    refine ⟨h.onTrack, h.received, h.register, ?_⟩
    unfold HeartbeatLoop.metricsTick HeartbeatLoop.restarts
    split
    · rename_i hrestart
      simpa using hrestart
    · simp
  · simpa only [Account.step, System.step, if_neg hphase] using h

/-- A step of the heartbeat loop that does not touch the count it remembers. -/
theorem Account.Matches.heartbeat (h : acc.Matches s) {loop : HeartbeatLoop}
    (hlast : loop.lastCumulativeReceivedShredCount = s.heartbeat.lastCumulativeReceivedShredCount) :
    acc.Matches { s with heartbeat := loop } :=
  ⟨h.onTrack, h.received, h.register, by rw [hlast]; exact h.cumulative⟩

/-- The counters keep to the account. -/
theorem Account.Matches.step (h : acc.Matches s) (a : Action) :
    (acc.step s a).Matches (s.step a) := by
  have hloop : (∀ c n, a ≠ .fetchAdd c n) → a ≠ .accessory → a ≠ .metricsTick →
      acc.Matches (s.step a) := by
    intro h₁ h₂ h₃
    rcases s.step_heartbeat h₁ h₂ with ⟨loop, heq, hlast⟩
    rw [heq]
    exact h.heartbeat (hlast h₃)
  cases a with
  | fetchAdd c n => exact h.fetchAdd c n
  | accessory => exact h.accessory
  | metricsTick => exact h.metricsTick
  | connect _ | heartbeat _ | shutdown | exit => exact hloop (by simp) (by simp) (by simp)

/-- At every point of a run the counters hold the account. -/
theorem MetricsRun.matches_run (enabledGrpcService : Bool) (actions : List Action) :
    (run enabledGrpcService actions).account.Matches (run enabledGrpcService actions).system := by
  unfold run
  induction actions using List.reverseRecOn with
  | nil => exact Account.matches_initial enabledGrpcService
  | append_singleton actions a ih =>
      rw [List.foldl_append, List.foldl_cons, List.foldl_nil]
      exact ih.step a

/-! ## Restarts -/

/-- A tick restarts the client exactly when the packets published since the last tick, counted
with the width of the counters, amount to nothing. -/
theorem restartsAtTick_iff (h : acc.Matches s) :
    s.RestartsAtTick ↔ s.heartbeat.phase = .connected ∧ acc.published % 2 ^ 64 = 0 := by
  unfold System.RestartsAtTick HeartbeatLoop.restarts
  rw [h.cumulative, beq_iff_eq, add_eq_left, ofNat_eq_zero_iff]

/-- Whenever the heartbeat loop takes the restart branch at a metrics tick, no packet was counted
since the tick before. -/
def RestartsOnlyWhenIdle (enabledGrpcService : Bool) (actions : List Action) : Prop :=
  ∀ before after, actions = before ++ .metricsTick :: after →
    (MetricsRun.run enabledGrpcService before).system.RestartsAtTick →
    (MetricsRun.run enabledGrpcService before).account.counted = 0

/-- Whenever packets were counted between two metrics ticks, resets published a number of
packets between them that the cumulative counter can tell from zero. -/
def PublishesBetweenTicks (enabledGrpcService : Bool) (actions : List Action) : Prop :=
  ∀ before after, actions = before ++ .metricsTick :: after →
    (MetricsRun.run enabledGrpcService before).system.heartbeat.phase = .connected →
    0 < (MetricsRun.run enabledGrpcService before).account.counted →
    (MetricsRun.run enabledGrpcService before).account.published % 2 ^ 64 ≠ 0

/-- In every interleaving, restarts mean that no packet was counted if and only if packets
that are counted between two ticks come with packets that are published between them. -/
theorem restarts_only_when_idle_iff (enabledGrpcService : Bool) (actions : List Action) :
    RestartsOnlyWhenIdle enabledGrpcService actions ↔
      PublishesBetweenTicks enabledGrpcService actions := by
  constructor
  · intro hidle before after hactions hphase hcounted hzero
    have hmatch := MetricsRun.matches_run enabledGrpcService before
    have hrestart := (restartsAtTick_iff hmatch).mpr ⟨hphase, hzero⟩
    exact absurd (hidle before after hactions hrestart) hcounted.ne'
  · intro hpublish before after hactions hrestart
    have hmatch := MetricsRun.matches_run enabledGrpcService before
    rcases (restartsAtTick_iff hmatch).mp hrestart with ⟨hphase, hzero⟩
    by_contra hcounted
    exact hpublish before after hactions hphase (Nat.pos_of_ne_zero hcounted) hzero

/-- A packet is counted, but no reset comes between it and the next metrics tick. -/
theorem restart_after_packet :
    ¬ RestartsOnlyWhenIdle false [.connect true, .fetchAdd .received 1, .metricsTick] := by
  intro hidle
  have hcounted := hidle [.connect true, .fetchAdd .received 1] [] rfl (by decide)
  exact absurd hcounted (by decide)

end ShredstreamProxy
