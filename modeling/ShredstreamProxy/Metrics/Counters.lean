import Mathlib

/-!
# Metrics counters

The counters that forwarder and reconstructor threads add to, and the accessory thread
that reports and resets them.  Each atomic operation is one step: a round of the accessory
thread is the list of atomic operations of {lit}`report` and {lit}`reset`, executed one at a
time between the operations of the other threads.

Main results:

- Theorem {lit}`paired_round`: in a round every amount that is added to a cumulative counter
  was swapped out of its own current counter just before.
- Theorem {lit}`Accessory.step_cases`: what a step of the accessory thread can do to a
  cumulative counter and its source.
-/

namespace ShredstreamProxy

/-- The current counters, which the accessory thread clears. -/
inductive Counter where
  | received
  | successForward
  | failForward
  | duplicate
  | sendBatchSizeSum
  | sendBatchCount
  | saturatedIovCount
  | unsaturatedIovCount
  | recoveredCount
  | entryCount
  | txnCount
  | unknownStartPositionCount
  | fecRecoveryErrorCount
  | bincodeDeserializeErrorCount
  | unknownStartPositionErrorCount
  | dedupTimeSpent
  | batchSendTimeSpent
deriving DecidableEq

/-- The cumulative counters, which persist after a reset. -/
inductive Cumulative where
  | aggReceivedCumulative
  | aggSuccessForwardCumulative
  | aggFailForwardCumulative
  | duplicateCumulative
deriving DecidableEq

/-- The current counter whose amounts a cumulative counter collects. -/
def Cumulative.source : Cumulative → Counter
  | .aggReceivedCumulative => .received
  | .aggSuccessForwardCumulative => .successForward
  | .aggFailForwardCumulative => .failForward
  | .duplicateCumulative => .duplicate

/-- The counters that all threads share. -/
structure ShredMetrics where
  enabledGrpcService : Bool
  current : Counter → UInt64
  cumulative : Cumulative → UInt64

def ShredMetrics.new (enabledGrpcService : Bool) : ShredMetrics where
  enabledGrpcService := enabledGrpcService
  current := fun _ => 0
  cumulative := fun _ => 0

/-- An atomic addition to a current counter, which wraps. -/
def ShredMetrics.fetchAdd (m : ShredMetrics) (c : Counter) (n : UInt64) : ShredMetrics :=
  { m with current := Function.update m.current c (m.current c + n) }

/-- An atomic swap of a current counter with zero. -/
def ShredMetrics.swapZero (m : ShredMetrics) (c : Counter) : ShredMetrics :=
  { m with current := Function.update m.current c 0 }

/-- An atomic addition to a cumulative counter, which wraps. -/
def ShredMetrics.fetchAddCumulative (m : ShredMetrics) (k : Cumulative) (n : UInt64) :
    ShredMetrics :=
  { m with cumulative := Function.update m.cumulative k (m.cumulative k + n) }

/-- A number is zero in 64 bits when it is a multiple of their range. -/
theorem ofNat_eq_zero_iff {n : Nat} : UInt64.ofNat n = 0 ↔ n % 2 ^ 64 = 0 := by
  rw [← UInt64.toNat_inj, UInt64.toNat_ofNat']
  rfl

section Operations

variable (m : ShredMetrics) (c c' : Counter) (k k' : Cumulative) (n : UInt64)

@[simp]
theorem current_fetchAdd :
    (m.fetchAdd c n).current c' = if c' = c then m.current c + n else m.current c' := by
  simp [ShredMetrics.fetchAdd, Function.update_apply]

@[simp]
theorem cumulative_fetchAdd : (m.fetchAdd c n).cumulative = m.cumulative :=
  rfl

@[simp]
theorem current_swapZero : (m.swapZero c).current c' = if c' = c then 0 else m.current c' := by
  simp [ShredMetrics.swapZero, Function.update_apply]

@[simp]
theorem cumulative_swapZero : (m.swapZero c).cumulative = m.cumulative :=
  rfl

@[simp]
theorem current_fetchAddCumulative : (m.fetchAddCumulative k n).current = m.current :=
  rfl

@[simp]
theorem cumulative_fetchAddCumulative :
    (m.fetchAddCumulative k n).cumulative k' =
      if k' = k then m.cumulative k + n else m.cumulative k' := by
  simp [ShredMetrics.fetchAddCumulative, Function.update_apply]

end Operations

/-! ## The accessory thread -/

/-- The atomic operations of the accessory thread. -/
inductive Instr where
  /-- Report the value of a counter. -/
  | load (c : Counter)
  /-- Swap a counter with zero and report the old value. -/
  | take (c : Counter)
  /-- Swap a counter with zero and keep the old value. -/
  | swap (c : Counter)
  /-- Add the value kept by the last swap to a cumulative counter. -/
  | publish (k : Cumulative)
  /-- Swap a counter with zero and drop the old value. -/
  | clear (c : Counter)
deriving DecidableEq

/-- The atomic operations of a report; the service metrics are part of it only when the
service is enabled. -/
def report (enabledGrpcService : Bool) : List Instr :=
  [.load .received, .load .successForward, .load .failForward, .load .duplicate,
    .load .saturatedIovCount, .load .unsaturatedIovCount,
    .load .sendBatchSizeSum, .load .sendBatchCount,
    .load .dedupTimeSpent, .load .batchSendTimeSpent] ++
  if enabledGrpcService then
    [.take .recoveredCount, .take .entryCount, .take .txnCount, .take .unknownStartPositionCount,
      .take .fecRecoveryErrorCount, .take .bincodeDeserializeErrorCount,
      .take .unknownStartPositionErrorCount]
  else []

/-- The atomic operations of a reset. -/
def reset : List Instr :=
  [.swap .received, .publish .aggReceivedCumulative,
    .swap .successForward, .publish .aggSuccessForwardCumulative,
    .swap .failForward, .publish .aggFailForwardCumulative,
    .swap .duplicate, .publish .duplicateCumulative,
    .clear .dedupTimeSpent, .clear .batchSendTimeSpent, .clear .sendBatchSizeSum,
    .clear .sendBatchCount, .clear .saturatedIovCount, .clear .unsaturatedIovCount]

/-- What the accessory thread does at each of its metrics ticks. -/
def round (enabledGrpcService : Bool) : List Instr :=
  report enabledGrpcService ++ reset

/-- The accessory thread: what is left of the current round, the value kept by the last swap,
and everything reported so far. -/
structure Accessory where
  program : List Instr
  register : UInt64
  reported : List (Counter × UInt64)

/-- The accessory thread waits for its first tick. -/
def Accessory.initial : Accessory := ⟨[], 0, []⟩

/-- One atomic operation of the accessory thread.  When nothing is left to do, the next
metrics tick starts a new round. -/
def Accessory.step (a : Accessory) (m : ShredMetrics) : Accessory × ShredMetrics :=
  match a.program with
  | [] => ({ a with program := round m.enabledGrpcService }, m)
  | .load c :: rest =>
      ({ a with program := rest, reported := a.reported ++ [(c, m.current c)] }, m)
  | .take c :: rest =>
      ({ a with program := rest, reported := a.reported ++ [(c, m.current c)] }, m.swapZero c)
  | .swap c :: rest => ({ a with program := rest, register := m.current c }, m.swapZero c)
  | .publish k :: rest => ({ a with program := rest }, m.fetchAddCumulative k a.register)
  | .clear c :: rest => ({ a with program := rest }, m.swapZero c)

/-! ## Swaps and publications belong together -/

/-- Every publication stands right after the swap of its own counter, which stands nowhere
else, and no other operation clears that counter. -/
def Paired : List Instr → Prop
  | [] => True
  | .load _ :: rest => Paired rest
  | .take c :: rest => (∀ k : Cumulative, k.source ≠ c) ∧ Paired rest
  | .swap c :: .publish k :: rest => k.source = c ∧ Paired rest
  | .swap _ :: _ => False
  | .publish _ :: _ => False
  | .clear c :: rest => (∀ k : Cumulative, k.source ≠ c) ∧ Paired rest

/-- Only four counters have a cumulative one. -/
theorem source_ne_of_service {c : Counter}
    (hc : c ≠ .received ∧ c ≠ .successForward ∧ c ≠ .failForward ∧ c ≠ .duplicate)
    (k : Cumulative) : k.source ≠ c := by
  cases k
  · exact hc.1.symm
  · exact hc.2.1.symm
  · exact hc.2.2.1.symm
  · exact hc.2.2.2.symm

/-- A round pairs its swaps and publications. -/
theorem paired_round (enabledGrpcService : Bool) : Paired (round enabledGrpcService) := by
  cases enabledGrpcService <;>
    simp only [round, report, reset, if_true, Bool.false_eq_true, if_false, List.append_nil,
      List.cons_append, List.nil_append, Paired, Cumulative.source, true_and, and_true] <;>
    (repeat' apply And.intro) <;> exact source_ne_of_service (by decide)

/-- Where the accessory thread may stand in a round: between pairs, or between the two
operations of one pair. -/
def OnTrack (program : List Instr) : Prop :=
  Paired program ∨ ∃ k rest, program = .publish k :: rest ∧ Paired rest

theorem onTrack_initial : OnTrack Accessory.initial.program :=
  Or.inl trivial

/-- What stands behind the next operation of a round. -/
def Follows (rest : List Instr) : Instr → Prop
  | .load _ => Paired rest
  | .take c => (∀ k : Cumulative, k.source ≠ c) ∧ Paired rest
  | .swap c => ∃ k rest', rest = .publish k :: rest' ∧ k.source = c ∧ Paired rest'
  | .publish _ => Paired rest
  | .clear c => (∀ k : Cumulative, k.source ≠ c) ∧ Paired rest

/-- What stands behind the next operation of a thread on its round. -/
theorem OnTrack.follows {i : Instr} {rest : List Instr} (h : OnTrack (i :: rest)) :
    Follows rest i := by
  rcases h with h | ⟨k, rest', heq, h⟩
  · cases i with
    | load c => exact h
    | take c => exact h
    | clear c => exact h
    | publish k => exact h.elim
    | swap c =>
        match rest, h with
        | .publish k :: rest', h => exact ⟨k, rest', rfl, h.1, h.2⟩
  · obtain ⟨rfl, rfl⟩ := List.cons.inj heq
    exact h

/-- A paired program does not start with a publication. -/
theorem not_publish_of_paired {program : List Instr} (h : Paired program) (k : Cumulative)
    (rest : List Instr) : program ≠ .publish k :: rest := by
  rintro rfl
  exact h

/-- The accessory thread stays on a round. -/
theorem OnTrack.step {a : Accessory} (h : OnTrack a.program) (m : ShredMetrics) :
    OnTrack (a.step m).1.program := by
  unfold Accessory.step
  split
  · exact Or.inl (paired_round _)
  all_goals
    rename_i hprogram
    rw [hprogram] at h
    have hfollows := h.follows
  · exact Or.inl hfollows
  · exact Or.inl hfollows.2
  · rcases hfollows with ⟨k, rest', rfl, _, hpaired⟩
    exact Or.inr ⟨k, rest', rfl, hpaired⟩
  · exact Or.inl hfollows
  · exact Or.inl hfollows.2

/-- No two cumulative counters come from one counter. -/
theorem Cumulative.source_injective : Function.Injective Cumulative.source := by
  intro k k' h
  cases k <;> cases k' <;> first | rfl | contradiction

/-- The step concerns neither the cumulative counter nor its source. -/
structure Accessory.Quiet (a : Accessory) (m : ShredMetrics) (k : Cumulative) : Prop where
  current : (a.step m).2.current k.source = m.current k.source
  cumulative : (a.step m).2.cumulative k = m.cumulative k
  not_due : ∀ rest, (a.step m).1.program ≠ .publish k :: rest
  not_swap : a.program.head? ≠ some (.swap k.source)
  not_publish : a.program.head? ≠ some (.publish k)

/-- An operation that is neither a swap nor a publication, and the start of a round, concern
no cumulative counter. -/
theorem Accessory.quiet_of_paired {a : Accessory} {m : ShredMetrics} {k : Cumulative}
    (hcurrent : (a.step m).2.current k.source = m.current k.source)
    (hcumulative : (a.step m).2.cumulative = m.cumulative)
    (hprogram : Paired (a.step m).1.program)
    (hhead : ∀ i, a.program.head? = some i → (∀ c, i ≠ .swap c) ∧ ∀ k, i ≠ .publish k) :
    a.Quiet m k where
  current := hcurrent
  cumulative := by rw [hcumulative]
  not_due := not_publish_of_paired hprogram k
  not_swap := fun h => (hhead _ h).1 _ rfl
  not_publish := fun h => (hhead _ h).2 _ rfl

/-- What a step of the accessory thread can do to a cumulative counter and its source: nothing,
swap out the source, or publish what was swapped out. -/
theorem Accessory.step_cases {a : Accessory} (h : OnTrack a.program) (m : ShredMetrics)
    (k : Cumulative) :
    a.Quiet m k ∨
      (∃ rest, a.program = .swap k.source :: .publish k :: rest ∧
        a.step m = ({ a with program := .publish k :: rest, register := m.current k.source },
          m.swapZero k.source)) ∨
      (∃ rest, a.program = .publish k :: rest ∧ Paired rest ∧
        a.step m = ({ a with program := rest }, m.fetchAddCumulative k a.register)) := by
  rcases hprogram : a.program with _ | ⟨i, rest⟩
  · refine Or.inl (quiet_of_paired ?_ ?_ ?_ ?_)
    · simp [Accessory.step, hprogram]
    · simp [Accessory.step, hprogram]
    · simpa [Accessory.step, hprogram] using paired_round m.enabledGrpcService
    · simp [hprogram]
  · rw [hprogram] at h
    have hfollows := h.follows
    cases i with
    | load c =>
        have hpaired : Paired rest := hfollows
        refine Or.inl (quiet_of_paired ?_ ?_ ?_ ?_)
        · simp [Accessory.step, hprogram]
        · simp [Accessory.step, hprogram]
        · simpa [Accessory.step, hprogram] using hpaired
        · simp [hprogram]
    | take c =>
        refine Or.inl (quiet_of_paired ?_ ?_ ?_ ?_)
        · simp [Accessory.step, hprogram, hfollows.1 k]
        · simp [Accessory.step, hprogram]
        · simpa [Accessory.step, hprogram] using hfollows.2
        · simp [hprogram]
    | clear c =>
        refine Or.inl (quiet_of_paired ?_ ?_ ?_ ?_)
        · simp [Accessory.step, hprogram, hfollows.1 k]
        · simp [Accessory.step, hprogram]
        · simpa [Accessory.step, hprogram] using hfollows.2
        · simp [hprogram]
    | swap c =>
        rcases hfollows with ⟨k', rest', rfl, rfl, _⟩
        by_cases hk : k' = k
        · subst hk
          exact Or.inr (Or.inl ⟨rest', rfl, by simp [Accessory.step, hprogram]⟩)
        · have hsource : k.source ≠ k'.source := fun hs => hk (Cumulative.source_injective hs).symm
          refine Or.inl ⟨?_, ?_, ?_, ?_, ?_⟩
          · simp [Accessory.step, hprogram, hsource]
          · simp [Accessory.step, hprogram]
          · simp [Accessory.step, hprogram, hk]
          · simpa [hprogram] using fun hs => hsource hs.symm
          · simp [hprogram]
    | publish k' =>
        by_cases hk : k' = k
        · subst hk
          exact Or.inr (Or.inr ⟨rest, rfl, hfollows, by simp [Accessory.step, hprogram]⟩)
        · refine Or.inl ⟨?_, ?_, ?_, ?_, ?_⟩
          · simp [Accessory.step, hprogram]
          · simp [Accessory.step, hprogram, Ne.symm hk]
          · simpa [Accessory.step, hprogram] using not_publish_of_paired hfollows k
          · simp [hprogram]
          · simpa [hprogram] using hk

end ShredstreamProxy
