import ShredstreamProxy.Metrics.HeartbeatEvents

/-!
# The totals that the heartbeat loops log

At exit a heartbeat loop logs how many heartbeats succeeded, how many failed and how often its
client was restarted.  The first loop adds its counts to the totals only at metrics ticks that see
new shreds, so that everything after the last one of them is missing at exit.  The second loop
adds the counts of a connection whenever it ends, and its heartbeats are counted right.  Neither
loop counts the restart of a client that was connected, and both count every attempt that fails,
the last one included, as a restart.

Main results:

- Theorem {lit}`HeartbeatLoop.matches_run`: what the first loop counts and has rolled over.
- Theorem {lit}`SubscribeOnlyLoop.counted_run`: what the second loop counts.
- Theorem {lit}`heartbeat_totals_iff`: when the logged totals are right.
- Theorem {lit}`heartbeat_totals_wrong`: runs of both loops after which they are not.
-/

namespace ShredstreamProxy

/-! ## What happened in a run -/

namespace HeartbeatEvent

/-- A heartbeat succeeded. -/
def succeeds : HeartbeatEvent → Bool
  | .heartbeat (.ok _) => true
  | _ => false

/-- A heartbeat failed. -/
def fails : HeartbeatEvent → Bool
  | .heartbeat .error => true
  | .heartbeat .invalidArgument => true
  | _ => false

/-- The loop attempted to build a client. -/
def attempts : HeartbeatEvent → Bool
  | .connect _ => true
  | _ => false

/-- The loop got a client. -/
def connects : HeartbeatEvent → Bool
  | .connect true => true
  | _ => false

/-- The loop did not get a client. -/
def connectFails : HeartbeatEvent → Bool
  | .connect false => true
  | _ => false

end HeartbeatEvent

/-- The totals that a loop logs. -/
inductive HeartbeatTotal where
  | successful
  | failed
  | restarts
deriving DecidableEq

/-- The events that a loop counts for a total; for restarts these are the failed attempts to build
a client. -/
def HeartbeatTotal.counts : HeartbeatTotal → HeartbeatEvent → Bool
  | .successful => HeartbeatEvent.succeeds
  | .failed => HeartbeatEvent.fails
  | .restarts => HeartbeatEvent.connectFails

/-- The totals are right: the client is restarted with every attempt to build one after the
first. -/
structure Truthful (totals : HeartbeatTotal → UInt64) (events : List HeartbeatEvent) : Prop where
  successful : (totals .successful).toNat = events.countP (·.succeeds)
  failed : (totals .failed).toNat = events.countP (·.fails)
  restarts : (totals .restarts).toNat = events.countP (·.attempts) - 1

/-- The right totals fit into 64 bits. -/
structure TotalsFit (events : List HeartbeatEvent) : Prop where
  successful : events.countP (·.succeeds) < 2 ^ 64
  failed : events.countP (·.fails) < 2 ^ 64
  restarts : events.countP (·.attempts) - 1 < 2 ^ 64

/-- Totals that are right fit into 64 bits. -/
theorem Truthful.totalsFit {totals : HeartbeatTotal → UInt64} {events : List HeartbeatEvent}
    (h : Truthful totals events) : TotalsFit events where
  successful := h.successful ▸ UInt64.toNat_lt _
  failed := h.failed ▸ UInt64.toNat_lt _
  restarts := h.restarts ▸ UInt64.toNat_lt _

/-- An attempt to build a client succeeds or fails. -/
theorem countP_attempts (events : List HeartbeatEvent) :
    events.countP (·.attempts) =
      events.countP (·.connects) + events.countP (·.connectFails) := by
  induction events with
  | nil => rfl
  | cons e events ih =>
      have he : (if e.attempts then 1 else 0) =
          (if e.connects then 1 else 0) + if e.connectFails then 1 else 0 := by
        cases e with
        | connect connected => cases connected <;> rfl
        | heartbeat _ | metricsTick _ | shutdown | exit => rfl
      simp only [List.countP_cons]
      omega

/-! ## What is rolled over -/

/-- The events of a run up to the last metrics tick that adds the counts to the totals, the events
after it, and the number of received shreds that was read at the last tick. -/
structure RollOver where
  lastCount : UInt64
  rolled : List HeartbeatEvent
  pending : List HeartbeatEvent

namespace RollOver

/-- A metrics tick adds the counts to the totals when it reads another number than the tick before;
otherwise it restarts the client. -/
def add (r : RollOver) : HeartbeatEvent → RollOver
  | .metricsTick n =>
      if n = r.lastCount then { r with pending := r.pending ++ [.metricsTick n] }
      else ⟨n, r.rolled ++ r.pending ++ [.metricsTick n], []⟩
  | e => { r with pending := r.pending ++ [e] }

def of (events : List HeartbeatEvent) : RollOver :=
  events.foldl add ⟨0, [], []⟩

theorem of_concat (events : List HeartbeatEvent) (e : HeartbeatEvent) :
    of (events ++ [e]) = (of events).add e := by
  simp [of]

/-- A metrics tick that reads another number rolls everything over. -/
theorem of_concat_of_ne {events : List HeartbeatEvent} {n : UInt64}
    (hn : n ≠ (of events).lastCount) :
    of (events ++ [.metricsTick n]) =
      ⟨n, (of events).rolled ++ (of events).pending ++ [.metricsTick n], []⟩ := by
  rw [of_concat, add, if_neg hn]

/-- Every other event is pending. -/
theorem of_concat_of_eq {events : List HeartbeatEvent} {e : HeartbeatEvent}
    (hn : ∀ n, e = .metricsTick n → n = (of events).lastCount) :
    of (events ++ [e]) = { of events with pending := (of events).pending ++ [e] } := by
  rw [of_concat]
  cases e with
  | metricsTick n => rw [add, if_pos (hn n rfl)]
  | connect _ | heartbeat _ | shutdown | exit => rfl

/-- Nothing else happens to the events of a run. -/
theorem rolled_append_pending (events : List HeartbeatEvent) :
    (of events).rolled ++ (of events).pending = events := by
  induction events using List.reverseRecOn with
  | nil => rfl
  | append_singleton events e ih =>
      by_cases hroll : ∃ n, e = .metricsTick n ∧ n ≠ (of events).lastCount
      · rcases hroll with ⟨n, rfl, hn⟩
        rw [of_concat_of_ne hn, ih]
        exact List.append_nil _
      · have hn : ∀ n, e = .metricsTick n → n = (of events).lastCount := by
          intro n he
          by_contra hne
          exact hroll ⟨n, he, hne⟩
        rw [of_concat_of_eq hn, ← List.append_assoc, ih]

/-- What is counted is rolled over or pending. -/
theorem countP_eq (p : HeartbeatEvent → Bool) (events : List HeartbeatEvent) :
    events.countP p = (of events).rolled.countP p + (of events).pending.countP p := by
  rw [← List.countP_append, rolled_append_pending]

end RollOver

/-! ## The first loop -/

namespace HeartbeatLoop

/-- The counts since the last time they were added to the totals. -/
def current (h : HeartbeatLoop) : HeartbeatTotal → UInt64
  | .successful => h.successfulHeartbeatCount
  | .failed => h.failedHeartbeatCount
  | .restarts => h.clientRestartCount

/-- The totals that the loop logs at exit. -/
def totals (h : HeartbeatLoop) : HeartbeatTotal → UInt64
  | .successful => h.successfulHeartbeatCountCumulative
  | .failed => h.failedHeartbeatCountCumulative
  | .restarts => h.clientRestartCountCumulative

/-- No heartbeat was answered after the last metrics tick that added the counts to the totals, and
the clients that were built at any time, with the attempts that failed after that tick, are at most
one. -/
structure RolledOver (events : List HeartbeatEvent) : Prop where
  heartbeats : ∀ e ∈ (RollOver.of events).pending, e.succeeds = false ∧ e.fails = false
  clients : events.countP (·.connects) +
    (RollOver.of events).pending.countP (·.connectFails) ≤ 1
  totalsFit : TotalsFit events

/-! ### One event -/

section Step

variable {h h' : HeartbeatLoop} {e : HeartbeatEvent}

/-- A loop that takes an event has not ended. -/
theorem phase_of_step (hstep : h.step e = some h') : h.phase ≠ .panicked := by
  intro hpanicked
  cases e <;> simp [step, hpanicked] at hstep

/-- A loop is connected because it was, or because it got a client. -/
theorem connected_of_step (hstep : h.step e = some h') (hconnected : h'.phase = .connected) :
    h.phase = .connected ∨ e = .connect true := by
  cases e with
  | connect connected =>
      cases connected with
      | true => exact Or.inr rfl
      | false =>
          simp only [step, Option.ite_none_right_eq_some, Option.some.injEq] at hstep
          rw [← hstep.2] at hconnected
          exact Or.inl hconnected
  | heartbeat _ | metricsTick _ | shutdown =>
      simp only [step, Option.ite_none_right_eq_some] at hstep
      exact Or.inl hstep.1
  | exit =>
      simp only [step, Option.ite_none_right_eq_some, Option.some.injEq] at hstep
      rw [← hstep.2] at hconnected
      exact absurd hconnected (by simp)

/-- A metrics tick that reads a new number adds the counts to the totals. -/
theorem step_rollOver {n : UInt64} (hstep : h.step (.metricsTick n) = some h')
    (hn : n ≠ h.lastCumulativeReceivedShredCount) :
    h.phase = .connected ∧ h'.lastCumulativeReceivedShredCount = n ∧
      ∀ c, h'.totals c = h.totals c + h.current c ∧ h'.current c = 0 := by
  simp only [step, Option.ite_none_right_eq_some, Option.some.injEq] at hstep
  rcases hstep with ⟨hconnected, rfl⟩
  have hrestarts : ¬ h.restarts n = true := by simpa [restarts] using hn
  rw [metricsTick, if_neg hrestarts]
  exact ⟨hconnected, rfl, fun c => by cases c <;> exact ⟨rfl, rfl⟩⟩

/-- The totals are left alone, and the event is counted as what it is. -/
structure CountedBy (h h' : HeartbeatLoop) (e : HeartbeatEvent) : Prop where
  lastCount : h'.lastCumulativeReceivedShredCount = h.lastCumulativeReceivedShredCount
  totals : ∀ c, h'.totals c = h.totals c
  current : ∀ c : HeartbeatTotal,
    h'.current c = h.current c + UInt64.ofNat (if c.counts e then 1 else 0)

/-- Events that only move the loop are not counted. -/
theorem countedBy_phase (h : HeartbeatLoop) (phase : HeartbeatPhase)
    (hzero : ∀ c : HeartbeatTotal, c.counts e = false) : CountedBy h { h with phase } e where
  lastCount := rfl
  totals c := by cases c <;> rfl
  current c := by
    rw [hzero]
    cases c <;> exact (add_zero _).symm

/-- An attempt to build a client counts a restart when it fails. -/
theorem countedBy_connect (h : HeartbeatLoop) (connected : Bool) :
    CountedBy h (h.connect connected) (.connect connected) := by
  cases connected with
  | true => exact countedBy_phase h .connected fun c => by cases c <;> rfl
  | false =>
      constructor
      · rfl
      · intro c
        cases c <;> rfl
      · intro c
        cases c with
        | successful | failed => exact (add_zero _).symm
        | restarts => rfl

/-- A heartbeat is counted as successful or failed unless it panics the loop. -/
theorem countedBy_heartbeat {result : HeartbeatResult}
    (hrunning : (h.heartbeat result).phase ≠ .panicked) :
    CountedBy h (h.heartbeat result) (.heartbeat result) := by
  cases result with
  | invalidArgument => exact absurd rfl hrunning
  | ok ttlMs =>
      constructor
      · rfl
      · intro c
        cases c <;> rfl
      · intro c
        cases c with
        | failed | restarts => exact (add_zero _).symm
        | successful => rfl
  | error =>
      constructor
      · rfl
      · intro c
        cases c <;> rfl
      · intro c
        cases c with
        | successful | restarts => exact (add_zero _).symm
        | failed => rfl

/-- Every event but a metrics tick that reads a new number is only counted. -/
theorem step_counts (hstep : h.step e = some h') (hrunning : h'.phase ≠ .panicked)
    (hn : ∀ n, e = .metricsTick n → n = h.lastCumulativeReceivedShredCount) : CountedBy h h' e := by
  cases e with
  | connect connected =>
      simp only [step, Option.ite_none_right_eq_some, Option.some.injEq] at hstep
      rcases hstep with ⟨-, rfl⟩
      exact countedBy_connect h connected
  | heartbeat result =>
      simp only [step, Option.ite_none_right_eq_some, Option.some.injEq] at hstep
      rcases hstep with ⟨-, rfl⟩
      exact countedBy_heartbeat hrunning
  | metricsTick n =>
      simp only [step, Option.ite_none_right_eq_some, Option.some.injEq] at hstep
      rcases hstep with ⟨-, rfl⟩
      have hrestarts : h.restarts n = true := by simpa [restarts] using hn n rfl
      rw [metricsTick, if_pos hrestarts]
      exact countedBy_phase h .connecting fun c => by cases c <;> rfl
  | shutdown | exit =>
      simp only [step, Option.ite_none_right_eq_some, Option.some.injEq] at hstep
      rcases hstep with ⟨-, rfl⟩
      exact countedBy_phase h _ fun c => by cases c <;> rfl

end Step

/-! ### A run -/

/-- The totals hold what is rolled over, and the counts what is pending.  Nothing is rolled over
before the loop gets a client. -/
structure Matches (events : List HeartbeatEvent) (h : HeartbeatLoop) : Prop where
  lastCount : h.lastCumulativeReceivedShredCount = (RollOver.of events).lastCount
  totals : ∀ c : HeartbeatTotal,
    h.totals c = UInt64.ofNat ((RollOver.of events).rolled.countP c.counts)
  current : ∀ c : HeartbeatTotal,
    h.current c = UInt64.ofNat ((RollOver.of events).pending.countP c.counts)
  connected : h.phase = .connected ∨ (RollOver.of events).rolled ≠ [] →
    0 < events.countP (·.connects)

theorem matches_initial : Matches [] initial where
  lastCount := rfl
  totals c := by cases c <;> rfl
  current c := by cases c <;> rfl
  connected := by simp [initial, RollOver.of]

section Matches

variable {events : List HeartbeatEvent} {h h' : HeartbeatLoop} {e : HeartbeatEvent}

/-- A metrics tick that reads another number adds the counts to the totals. -/
theorem Matches.rollOver (hmatch : Matches events h) {n : UInt64}
    (hstep : h.step (.metricsTick n) = some h') (hn : n ≠ h.lastCumulativeReceivedShredCount) :
    Matches (events ++ [.metricsTick n]) h' := by
  rcases step_rollOver hstep hn with ⟨hconnected, hlast, hcounts⟩
  rw [hmatch.lastCount] at hn
  have hadd := RollOver.of_concat_of_ne hn
  rw [RollOver.rolled_append_pending] at hadd
  constructor
  · rw [hadd, hlast]
  · intro c
    have hzero : c.counts (.metricsTick n) = false := by cases c <;> rfl
    rw [hadd, (hcounts c).1, hmatch.totals, hmatch.current, ← UInt64.ofNat_add,
      ← RollOver.countP_eq, List.countP_append]
    simp [hzero]
  · intro c
    rw [hadd, (hcounts c).2]
    rfl
  · intro _
    rw [List.countP_append]
    exact Nat.lt_add_right _ (hmatch.connected (Or.inl hconnected))

/-- Every other event is counted, and the totals stay. -/
theorem Matches.count (hmatch : Matches events h) (hstep : h.step e = some h')
    (hrunning : h'.phase ≠ .panicked)
    (hn : ∀ n, e = .metricsTick n → n = h.lastCumulativeReceivedShredCount) :
    Matches (events ++ [e]) h' := by
  have hcounted := step_counts hstep hrunning hn
  rw [hmatch.lastCount] at hn
  have hadd := RollOver.of_concat_of_eq hn
  constructor
  · rw [hadd, hcounted.lastCount]
    exact hmatch.lastCount
  · intro c
    rw [hadd, hcounted.totals]
    exact hmatch.totals c
  · intro c
    rw [hadd, hcounted.current, hmatch.current, List.countP_append, UInt64.ofNat_add]
    simp [List.countP_cons]
  · rw [hadd, List.countP_append]
    rintro (hconnected | hrolled)
    · rcases connected_of_step hstep hconnected with hbefore | rfl
      · exact Nat.lt_add_right _ (hmatch.connected (Or.inl hbefore))
      · exact Nat.lt_add_left _ (by decide)
    · exact Nat.lt_add_right _ (hmatch.connected (Or.inr hrolled))

/-- Every event that the loop survives keeps the match. -/
theorem Matches.step (hmatch : Matches events h) (hstep : h.step e = some h')
    (hrunning : h'.phase ≠ .panicked) : Matches (events ++ [e]) h' := by
  by_cases hroll : ∃ n, e = .metricsTick n ∧ n ≠ h.lastCumulativeReceivedShredCount
  · rcases hroll with ⟨n, rfl, hn⟩
    exact hmatch.rollOver hstep hn
  · apply hmatch.count hstep hrunning
    intro n he
    by_contra hne
    exact hroll ⟨n, he, hne⟩

end Matches

/-- The totals and the counts of every run that did not panic. -/
theorem matches_run {events : List HeartbeatEvent} {h : HeartbeatLoop} (hrun : run events = some h)
    (hrunning : h.phase ≠ .panicked) : Matches events h := by
  refine EventRun.run_invariant (I := fun events h => h.phase ≠ .panicked → Matches events h)
    (fun _ => matches_initial) ?_ hrun hrunning
  intro past h e h' hpast hstep hrunning
  exact (hpast (phase_of_step hstep)).step hstep hrunning

/-- The totals count what was rolled over. -/
theorem Matches.toNat_totals {events : List HeartbeatEvent} {h : HeartbeatLoop}
    (hmatch : Matches events h) (c : HeartbeatTotal) :
    (h.totals c).toNat = (RollOver.of events).rolled.countP c.counts % 2 ^ 64 := by
  rw [hmatch.totals, UInt64.toNat_ofNat']

/-- No heartbeat is answered exactly when none is counted. -/
theorem forall_no_heartbeat_iff {l : List HeartbeatEvent} :
    (∀ e ∈ l, e.succeeds = false ∧ e.fails = false) ↔
      l.countP (·.succeeds) = 0 ∧ l.countP (·.fails) = 0 := by
  simp only [List.countP_eq_zero, Bool.not_eq_true]
  exact forall₂_and

/-- Nothing is rolled over before the loop gets a client. -/
theorem Matches.no_rolled {events : List HeartbeatEvent} {h : HeartbeatLoop}
    (hmatch : Matches events h) (hzero : events.countP (·.connects) = 0) :
    (RollOver.of events).rolled.countP (·.connectFails) = 0 := by
  by_contra hne
  have hnonempty : (RollOver.of events).rolled ≠ [] := by
    intro hnil
    rw [hnil] at hne
    exact hne rfl
  have hpos := hmatch.connected (Or.inr hnonempty)
  omega

/-- What is logged at exit is right exactly when everything is rolled over. -/
theorem truthful_iff {events : List HeartbeatEvent} {h : HeartbeatLoop} (hrun : run events = some h)
    (hexited : h.phase = .exited) : Truthful h.totals events ↔ RolledOver events := by
  have hmatch := matches_run hrun (by simp [hexited])
  have hsuccessful : (h.totals .successful).toNat =
      (RollOver.of events).rolled.countP (·.succeeds) % 2 ^ 64 := hmatch.toNat_totals .successful
  have hfailed : (h.totals .failed).toNat =
      (RollOver.of events).rolled.countP (·.fails) % 2 ^ 64 := hmatch.toNat_totals .failed
  have hrestarts : (h.totals .restarts).toNat =
      (RollOver.of events).rolled.countP (·.connectFails) % 2 ^ 64 := hmatch.toNat_totals .restarts
  have hnumSuccessful := RollOver.countP_eq (·.succeeds) events
  have hnumFailed := RollOver.countP_eq (·.fails) events
  have hnumRestarts := RollOver.countP_eq (·.connectFails) events
  have hnumAttempts := countP_attempts events
  constructor
  · intro htrue
    have htrueSuccessful := htrue.successful
    have htrueFailed := htrue.failed
    have htrueRestarts := htrue.restarts
    have hpendingSuccessful : (RollOver.of events).pending.countP (·.succeeds) = 0 := by omega
    have hpendingFailed : (RollOver.of events).pending.countP (·.fails) = 0 := by omega
    constructor
    · exact forall_no_heartbeat_iff.mpr ⟨hpendingSuccessful, hpendingFailed⟩
    · omega
    · exact htrue.totalsFit
  · intro hrolled
    have hpending := forall_no_heartbeat_iff.mp hrolled.heartbeats
    have hclients := hrolled.clients
    have hnone := hmatch.no_rolled
    have hfitSuccessful := hrolled.totalsFit.successful
    have hfitFailed := hrolled.totalsFit.failed
    have hfitRestarts := hrolled.totalsFit.restarts
    constructor
    · omega
    · omega
    · omega

end HeartbeatLoop

/-! ## The second loop -/

namespace SubscribeOnlyLoop

/-- The counts of the connection. -/
def current (l : SubscribeOnlyLoop) : HeartbeatTotal → UInt64
  | .successful => l.successfulHeartbeatCount
  | .failed => l.failedHeartbeatCount
  | .restarts => 0

/-- The totals that the loop logs at exit. -/
def totals (l : SubscribeOnlyLoop) : HeartbeatTotal → UInt64
  | .successful => l.successfulHeartbeatCountCumulative
  | .failed => l.failedHeartbeatCountCumulative
  | .restarts => l.clientRestartCountCumulative

/-- What is counted so far: the totals, with the counts of the connection if there is one. -/
def counted (l : SubscribeOnlyLoop) (c : HeartbeatTotal) : UInt64 :=
  l.totals c + if l.phase = .connected then l.current c else 0

/-- The loop made no attempt to build a client, or it got a client exactly once. -/
structure ConnectedOnce (events : List HeartbeatEvent) : Prop where
  clients : events.countP (·.attempts) = 0 ∨ events.countP (·.connects) = 1
  totalsFit : TotalsFit events

/-! ### One event -/

section Step

variable {l l' : SubscribeOnlyLoop} {e : HeartbeatEvent}

theorem phase_of_step (hstep : l.step e = some l') : l.phase ≠ .panicked := by
  intro hpanicked
  cases e <;> simp [step, hpanicked] at hstep

/-- Leaving the inner loop changes nothing about what is counted. -/
theorem counted_leave (hconnected : l.phase = .connected) {phase : HeartbeatPhase}
    (hphase : phase ≠ .connected) (c : HeartbeatTotal) :
    (l.leave phase).counted c = l.counted c := by
  cases c <;> simp [counted, leave, totals, current, hconnected, hphase]

/-- A heartbeat that the loop survives is counted. -/
theorem counted_heartbeat (hconnected : l.phase = .connected) {result : HeartbeatResult}
    (hrunning : (l.heartbeat result).phase ≠ .panicked) (c : HeartbeatTotal) :
    (l.heartbeat result).counted c =
      l.counted c + UInt64.ofNat (if c.counts (.heartbeat result) then 1 else 0) := by
  cases result with
  | invalidArgument => exact absurd rfl hrunning
  | ok ttlMs =>
      cases c <;> simp [heartbeat, counted, totals, current, hconnected, HeartbeatTotal.counts,
        HeartbeatEvent.succeeds, HeartbeatEvent.fails, HeartbeatEvent.connectFails, add_assoc]
  | error =>
      have hcount : SubscribeOnlyLoop.counted
          { l with failedHeartbeatCount := l.failedHeartbeatCount + 1 } c =
          l.counted c + UInt64.ofNat (if c.counts (.heartbeat .error) then 1 else 0) := by
        cases c <;> simp [counted, totals, current, hconnected, HeartbeatTotal.counts,
          HeartbeatEvent.succeeds, HeartbeatEvent.fails, HeartbeatEvent.connectFails, add_assoc]
      rw [← hcount]
      simp only [heartbeat]
      split
      · apply counted_leave
        · exact hconnected
        · decide
      · rfl

/-- An attempt to build a client is counted. -/
theorem counted_connect (hconnecting : l.phase = .connecting) (connected : Bool)
    (c : HeartbeatTotal) :
    (l.connect connected).counted c =
      l.counted c + UInt64.ofNat (if c.counts (.connect connected) then 1 else 0) := by
  cases connected with
  | true =>
      cases c <;> simp [connect, counted, totals, current, hconnecting, HeartbeatTotal.counts,
        HeartbeatEvent.succeeds, HeartbeatEvent.fails, HeartbeatEvent.connectFails]
  | false =>
      cases c <;> simp [connect, counted, totals, hconnecting, HeartbeatTotal.counts,
        HeartbeatEvent.succeeds, HeartbeatEvent.fails, HeartbeatEvent.connectFails]

/-- Every event is counted as what it is. -/
theorem counted_step (hstep : l.step e = some l') (hrunning : l'.phase ≠ .panicked)
    (c : HeartbeatTotal) :
    l'.counted c = l.counted c + UInt64.ofNat (if c.counts e then 1 else 0) := by
  cases e with
  | connect connected =>
      simp only [step, Option.ite_none_right_eq_some, Option.some.injEq] at hstep
      rcases hstep with ⟨hconnecting, rfl⟩
      exact counted_connect hconnecting connected c
  | heartbeat result =>
      simp only [step, Option.ite_none_right_eq_some, Option.some.injEq] at hstep
      rcases hstep with ⟨hconnected, rfl⟩
      exact counted_heartbeat hconnected hrunning c
  | metricsTick n => nomatch hstep
  | shutdown =>
      have hzero : c.counts .shutdown = false := by cases c <;> rfl
      simp only [step, Option.ite_none_right_eq_some, Option.some.injEq] at hstep
      rcases hstep with ⟨hconnected, rfl⟩
      rw [counted_leave hconnected (by decide), hzero]
      exact (add_zero _).symm
  | exit =>
      have hzero : c.counts .exit = false := by cases c <;> rfl
      rw [hzero]
      simp only [step] at hstep
      split at hstep
      · rename_i hconnecting
        obtain rfl := Option.some.inj hstep
        simp [counted, totals, hconnecting]
      · simp only [Option.ite_none_right_eq_some, Option.some.injEq] at hstep
        rcases hstep with ⟨hconnected, rfl⟩
        rw [counted_leave hconnected (by decide)]
        exact (add_zero _).symm

end Step

/-! ### A run -/

/-- Everything that happens in a run that did not panic is counted. -/
theorem counted_run {events : List HeartbeatEvent} {l : SubscribeOnlyLoop}
    (hrun : run events = some l) (hrunning : l.phase ≠ .panicked) (c : HeartbeatTotal) :
    l.counted c = UInt64.ofNat (events.countP c.counts) := by
  refine EventRun.run_invariant (I := fun events (l : SubscribeOnlyLoop) =>
    l.phase ≠ .panicked → l.counted c = UInt64.ofNat (events.countP c.counts)) ?_ ?_ hrun hrunning
  · intro _
    cases c <;> rfl
  · intro past l e l' hpast hstep hrunning
    rw [counted_step hstep hrunning, hpast (phase_of_step hstep), List.countP_append,
      UInt64.ofNat_add]
    simp [List.countP_cons]

/-- At exit the totals count everything that happened. -/
theorem toNat_totals {events : List HeartbeatEvent} {l : SubscribeOnlyLoop}
    (hrun : run events = some l) (hexited : l.phase = .exited) (c : HeartbeatTotal) :
    (l.totals c).toNat = events.countP c.counts % 2 ^ 64 := by
  have hcounted := counted_run hrun (by simp [hexited]) c
  rw [counted, if_neg (by simp [hexited]), add_zero] at hcounted
  rw [hcounted, UInt64.toNat_ofNat']

/-- What is logged at exit is right exactly when the loop needed no second client. -/
theorem truthful_iff {events : List HeartbeatEvent} {l : SubscribeOnlyLoop}
    (hrun : run events = some l) (hexited : l.phase = .exited) :
    Truthful l.totals events ↔ ConnectedOnce events := by
  have hsuccessful : (l.totals .successful).toNat = events.countP (·.succeeds) % 2 ^ 64 :=
    toNat_totals hrun hexited .successful
  have hfailed : (l.totals .failed).toNat = events.countP (·.fails) % 2 ^ 64 :=
    toNat_totals hrun hexited .failed
  have hrestarts : (l.totals .restarts).toNat = events.countP (·.connectFails) % 2 ^ 64 :=
    toNat_totals hrun hexited .restarts
  have hnumAttempts := countP_attempts events
  constructor
  · intro htrue
    have htrueRestarts := htrue.restarts
    constructor
    · omega
    · exact htrue.totalsFit
  · intro honce
    have hclients := honce.clients
    have hfitSuccessful := honce.totalsFit.successful
    have hfitFailed := honce.totalsFit.failed
    have hfitRestarts := honce.totalsFit.restarts
    constructor
    · omega
    · omega
    · omega

end SubscribeOnlyLoop

/-! ## Both loops -/

/-- For every sequence of events after which a loop has exited, the totals that it logs are right
if and only if: for the first loop, everything is rolled over; for the second one, no second client
was needed. -/
theorem heartbeat_totals_iff (events : List HeartbeatEvent) :
    (∀ h : HeartbeatLoop, HeartbeatLoop.run events = some h → h.phase = .exited →
      (Truthful h.totals events ↔ HeartbeatLoop.RolledOver events)) ∧
    (∀ l : SubscribeOnlyLoop, SubscribeOnlyLoop.run events = some l → l.phase = .exited →
      (Truthful l.totals events ↔ SubscribeOnlyLoop.ConnectedOnce events)) := by
  constructor
  · intro h hrun hexited
    exact HeartbeatLoop.truthful_iff hrun hexited
  · intro l hrun hexited
    exact SubscribeOnlyLoop.truthful_iff hrun hexited

namespace Sample

/-- One heartbeat succeeds and one fails before a metrics tick, after which the loop exits. -/
def lateExit : List HeartbeatEvent :=
  [.connect true, .heartbeat (.ok 3000), .heartbeat .error, .metricsTick 1, .exit]

def lateExitLoop : HeartbeatLoop where
  phase := .exited
  heartbeatIntervalMs := 1000
  lastCumulativeReceivedShredCount := 1
  clientRestartCount := 0
  successfulHeartbeatCount := 0
  failedHeartbeatCount := 0
  clientRestartCountCumulative := 0
  successfulHeartbeatCountCumulative := 1
  failedHeartbeatCountCumulative := 1

/-- A heartbeat fails and one succeeds, with the only client of the loop. -/
def oneClient : List HeartbeatEvent :=
  [.connect true, .heartbeat .error, .heartbeat (.ok 3000), .exit]

def oneClientLoop : SubscribeOnlyLoop where
  phase := .exited
  heartbeatIntervalMs := 1000
  successfulHeartbeatCount := 1
  failedHeartbeatCount := 1
  clientRestartCountCumulative := 0
  successfulHeartbeatCountCumulative := 1
  failedHeartbeatCountCumulative := 1

/-- A heartbeat succeeds, and the loop exits before its next metrics tick. -/
def earlyExit : List HeartbeatEvent := [.connect true, .heartbeat (.ok 3000), .exit]

def earlyExitLoop : HeartbeatLoop where
  phase := .exited
  heartbeatIntervalMs := 1000
  lastCumulativeReceivedShredCount := 0
  clientRestartCount := 0
  successfulHeartbeatCount := 1
  failedHeartbeatCount := 0
  clientRestartCountCumulative := 0
  successfulHeartbeatCountCumulative := 0
  failedHeartbeatCountCumulative := 0

/-- Six heartbeats fail, and the loop gets a second client before it exits. -/
def secondClient : List HeartbeatEvent :=
  .connect true :: List.replicate 6 (.heartbeat .error) ++ [.connect true, .exit]

def secondClientLoop : SubscribeOnlyLoop where
  phase := .exited
  heartbeatIntervalMs := 1000
  successfulHeartbeatCount := 0
  failedHeartbeatCount := 0
  clientRestartCountCumulative := 0
  successfulHeartbeatCountCumulative := 0
  failedHeartbeatCountCumulative := 6

end Sample

/-- The first loop has added its counts to the totals before it exits, and the second one needs no
second client: both meet their conditions, and log the right totals. -/
theorem heartbeat_totals_iff_sample :
    (HeartbeatLoop.run Sample.lateExit = some Sample.lateExitLoop ∧
      HeartbeatLoop.RolledOver Sample.lateExit ∧
      Truthful Sample.lateExitLoop.totals Sample.lateExit) ∧
    (SubscribeOnlyLoop.run Sample.oneClient = some Sample.oneClientLoop ∧
      SubscribeOnlyLoop.ConnectedOnce Sample.oneClient ∧
      Truthful Sample.oneClientLoop.totals Sample.oneClient) := by
  have hrolled : HeartbeatLoop.RolledOver Sample.lateExit :=
    ⟨by decide, by decide, ⟨by decide, by decide, by decide⟩⟩
  have honce : SubscribeOnlyLoop.ConnectedOnce Sample.oneClient :=
    ⟨by decide, ⟨by decide, by decide, by decide⟩⟩
  have hfirst := (heartbeat_totals_iff Sample.lateExit).1 Sample.lateExitLoop rfl rfl
  have hsecond := (heartbeat_totals_iff Sample.oneClient).2 Sample.oneClientLoop rfl rfl
  exact ⟨⟨rfl, hrolled, hfirst.mpr hrolled⟩, ⟨rfl, honce, hsecond.mpr honce⟩⟩

/-- The first loop logs no successful heartbeat, and the second one no restart. -/
theorem heartbeat_totals_wrong :
    (HeartbeatLoop.run Sample.earlyExit = some Sample.earlyExitLoop ∧
      Sample.earlyExitLoop.phase = .exited ∧
      Sample.earlyExitLoop.totals .successful = 0 ∧
      ¬ Truthful Sample.earlyExitLoop.totals Sample.earlyExit) ∧
    (SubscribeOnlyLoop.run Sample.secondClient = some Sample.secondClientLoop ∧
      Sample.secondClientLoop.phase = .exited ∧
      Sample.secondClientLoop.totals .restarts = 0 ∧
      ¬ Truthful Sample.secondClientLoop.totals Sample.secondClient) := by
  constructor
  · refine ⟨rfl, rfl, rfl, ?_⟩
    intro htrue
    exact absurd htrue.successful (by decide)
  · refine ⟨rfl, rfl, rfl, ?_⟩
    intro htrue
    exact absurd htrue.restarts (by decide)

end ShredstreamProxy
