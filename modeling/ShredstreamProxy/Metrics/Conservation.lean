import ShredstreamProxy.Metrics.Heartbeat

/-!
# Where the increments go

Every increment of a counter is on its way to a cumulative counter, or to a report.  This module
keeps a tally of all increments of a run and follows them.  The way to the cumulative counters is
safe: a reset swaps the current counter out and adds what it swapped out.  The way to a report is
safe for the service metrics, which the report itself swaps out, but a counter that is reported
with a load and cleared later by the reset loses what arrives in between.

Main results:

- Theorem {lit}`Tally.Conserves.step`: current counter, held amount and cumulative counter add up.
- Theorem {lit}`Tally.Reports.step`: reports, current counter and what was missed add up.
- Theorem {lit}`nothing_lost_iff`: when the reports are complete at the end of every round.
- Theorem {lit}`increment_missed`: a run in which they are not.
-/

namespace ShredstreamProxy

/-- The service metrics, which a report swaps out itself. -/
def Counter.isService : Counter → Bool
  | .recoveredCount | .entryCount | .txnCount | .unknownStartPositionCount
  | .fecRecoveryErrorCount | .bincodeDeserializeErrorCount | .unknownStartPositionErrorCount => true
  | _ => false

/-- The amount that a reset holds between its swap and its addition to the cumulative counter. -/
def Accessory.held (a : Accessory) (k : Cumulative) : UInt64 :=
  if a.program.head? = some (.publish k) then a.register else 0

/-- The sum of all values reported for a counter. -/
def Accessory.reportedSum (a : Accessory) (c : Counter) : UInt64 :=
  ((a.reported.filter fun r => r.1 = c).map Prod.snd).sum

/-- The current round has reported the counter and has not cleared it yet. -/
def Uncleared (c : Counter) (program : List Instr) : Prop :=
  .load c ∉ program ∧ (.swap c ∈ program ∨ .clear c ∈ program)

instance (c : Counter) (program : List Instr) : Decidable (Uncleared c program) :=
  inferInstanceAs (Decidable (_ ∧ _))

/-- A tally of the increments of a run: all of them, and those that came while their counter was
reported and not cleared. -/
structure Tally where
  added : Counter → Nat
  missed : Counter → Nat

namespace Tally

def initial : Tally := ⟨fun _ => 0, fun _ => 0⟩

/-- What a step does to the tally. -/
def step (t : Tally) (s : System) : Action → Tally
  | .fetchAdd c n =>
      { added := Function.update t.added c (t.added c + n.toNat)
        missed :=
          if Uncleared c s.accessory.program then
            Function.update t.missed c (t.missed c + n.toNat)
          else t.missed }
  | _ => t

end Tally

/-- The system after some steps, with the tally of them. -/
structure TallyRun where
  system : System
  tally : Tally

namespace TallyRun

def initial (enabledGrpcService : Bool) : TallyRun :=
  ⟨System.initial enabledGrpcService, Tally.initial⟩

def step (r : TallyRun) (a : Action) : TallyRun :=
  ⟨r.system.step a, r.tally.step r.system a⟩

/-- The run of a sequence of steps of the threads, in any interleaving. -/
def run (enabledGrpcService : Bool) (actions : List Action) : TallyRun :=
  actions.foldl step (initial enabledGrpcService)

end TallyRun

/-- What holds initially and is kept by every addition to a counter, by every operation of the
accessory thread, and by everything that concerns neither, holds after every run. -/
theorem TallyRun.invariant {P : Tally → System → Prop} (enabledGrpcService : Bool)
    (hinitial : P Tally.initial (System.initial enabledGrpcService))
    (hadd : ∀ t s c n, P t s → P (t.step s (.fetchAdd c n)) (s.step (.fetchAdd c n)))
    (haccessory : ∀ t s, P t s → P t (s.step .accessory))
    (hframe : ∀ t s loop, P t s → P t { s with heartbeat := loop }) (actions : List Action) :
    P (run enabledGrpcService actions).tally (run enabledGrpcService actions).system := by
  unfold run
  induction actions using List.reverseRecOn with
  | nil => exact hinitial
  | append_singleton actions a ih =>
      rw [List.foldl_append, List.foldl_cons, List.foldl_nil]
      generalize actions.foldl step (initial enabledGrpcService) = r at ih
      have hloop : (∀ c n, a ≠ .fetchAdd c n) → a ≠ .accessory → P r.tally (r.system.step a) := by
        intro h₁ h₂
        rcases r.system.step_heartbeat h₁ h₂ with ⟨loop, heq, _⟩
        rw [heq]
        exact hframe _ _ loop ih
      cases a with
      | fetchAdd c n => exact hadd _ _ c n ih
      | accessory => exact haccessory _ _ ih
      | connect _ | heartbeat _ | metricsTick | shutdown | exit =>
          exact hloop (by simp) (by simp)

variable {t : Tally} {s : System}

/-! ## The way to the cumulative counters -/

/-- Every increment of the four counters with a cumulative counter is in the current counter, held
by a reset, or in the cumulative counter. -/
structure Tally.Conserves (t : Tally) (s : System) : Prop where
  onTrack : OnTrack s.accessory.program
  total : ∀ k : Cumulative, s.metrics.cumulative k + s.metrics.current k.source +
    s.accessory.held k = UInt64.ofNat (t.added k.source)

theorem Tally.conserves_initial (enabledGrpcService : Bool) :
    Tally.initial.Conserves (System.initial enabledGrpcService) where
  onTrack := onTrack_initial
  total := fun _ => rfl

/-- An addition to a counter keeps the sum. -/
theorem Tally.Conserves.fetchAdd (h : t.Conserves s) (c : Counter) (n : UInt64) :
    (t.step s (.fetchAdd c n)).Conserves (s.step (.fetchAdd c n)) := by
  refine ⟨h.onTrack, ?_⟩
  intro k
  have htotal := h.total k
  by_cases hc : k.source = c
  · subst hc
    simp only [Tally.step, System.step, current_fetchAdd, cumulative_fetchAdd, if_true,
      Function.update_self, UInt64.ofNat_add, UInt64.ofNat_toNat]
    rw [← htotal]
    ac_rfl
  · simp only [Tally.step, System.step, current_fetchAdd, cumulative_fetchAdd, if_neg hc,
      Function.update_of_ne hc]
    exact htotal

/-- The accessory thread holds a value only before it publishes it. -/
theorem Accessory.held_of_ne {a : Accessory} {k : Cumulative}
    (h : a.program.head? ≠ some (.publish k)) : a.held k = 0 :=
  if_neg h

/-- An operation of the accessory thread keeps the sum. -/
theorem Tally.Conserves.accessory (h : t.Conserves s) :
    t.Conserves (s.step .accessory) := by
  refine ⟨h.onTrack.step s.metrics, ?_⟩
  intro k
  have htotal := h.total k
  simp only [System.step]
  rcases Accessory.step_cases h.onTrack s.metrics k with
    hquiet | ⟨rest, hprogram, heq⟩ | ⟨rest, hprogram, hpaired, heq⟩
  · have hafter : (s.accessory.step s.metrics).1.program.head? ≠ some (.publish k) := by
      intro hhead
      rcases List.head?_eq_some_iff.mp hhead with ⟨rest, hrest⟩
      exact hquiet.not_due rest hrest
    rw [hquiet.current, hquiet.cumulative, Accessory.held_of_ne hafter,
      ← Accessory.held_of_ne hquiet.not_publish]
    exact htotal
  · -- what leaves the current counter is held
    have hbefore : s.accessory.held k = 0 := Accessory.held_of_ne (by simp [hprogram])
    rw [hbefore] at htotal
    rw [heq, ← htotal]
    simp [Accessory.held]
  · -- what was held reaches the cumulative counter
    have hbefore : s.accessory.held k = s.accessory.register := if_pos (by simp [hprogram])
    have hafter : rest.head? ≠ some (.publish k) := by
      intro hhead
      rcases List.head?_eq_some_iff.mp hhead with ⟨rest', hrest⟩
      exact not_publish_of_paired hpaired k rest' hrest
    rw [hbefore] at htotal
    rw [heq, Accessory.held_of_ne hafter, ← htotal]
    simp only [cumulative_fetchAddCumulative, current_fetchAddCumulative, if_true, UInt64.add_zero]
    ac_rfl

/-! ## The way to the reports -/

/-- A round reports each counter at most once before it clears it, and clears it once afterwards;
what a report swaps out itself is cleared nowhere else. -/
def ordered : List Instr → Bool
  | [] => true
  | .load c :: rest => .load c ∉ rest && (.swap c ∈ rest || .clear c ∈ rest) && ordered rest
  | .take c :: rest => .swap c ∉ rest && .clear c ∉ rest && ordered rest
  | .swap c :: rest => .load c ∉ rest && .swap c ∉ rest && .clear c ∉ rest && ordered rest
  | .publish _ :: rest => ordered rest
  | .clear c :: rest => .load c ∉ rest && .swap c ∉ rest && .clear c ∉ rest && ordered rest

/-- The operations of a round come in this order. -/
theorem ordered_round (enabledGrpcService : Bool) : ordered (round enabledGrpcService) = true := by
  cases enabledGrpcService <;> decide

/-- What the next reports will find of the increments so far: nothing of a counter that the round
has reported and will clear. -/
def owed (m : ShredMetrics) (program : List Instr) (c : Counter) : UInt64 :=
  if Uncleared c program then 0 else m.current c

/-- The reported values, what is still to be reported and what was missed make up all increments. -/
structure Tally.Reports (t : Tally) (s : System) : Prop where
  within : ∀ i ∈ s.accessory.program, i ∈ round true
  ordered : ordered s.accessory.program = true
  service : ∀ c, c.isService = true → t.missed c = 0
  total : ∀ c, s.accessory.reportedSum c + owed s.metrics s.accessory.program c +
    UInt64.ofNat (t.missed c) = UInt64.ofNat (t.added c)

theorem Tally.reports_initial (enabledGrpcService : Bool) :
    Tally.initial.Reports (System.initial enabledGrpcService) where
  within := fun _ h => absurd h List.not_mem_nil
  ordered := rfl
  service := fun _ _ => rfl
  total := fun _ => rfl

/-- A report clears the service metrics itself, so they never wait to be cleared. -/
theorem Tally.Reports.not_uncleared (h : t.Reports s) {c : Counter} (hc : c.isService = true) :
    ¬ Uncleared c s.accessory.program := by
  have hround : .swap c ∉ round true ∧ .clear c ∉ round true := by
    cases c <;> first | exact absurd hc Bool.false_ne_true | decide
  intro huncleared
  rcases huncleared.2 with hswap | hclear
  · exact hround.1 (h.within _ hswap)
  · exact hround.2 (h.within _ hclear)

/-- An addition is still to be reported, or is missed. -/
theorem Tally.Reports.fetchAdd (h : t.Reports s) (c : Counter) (n : UInt64) :
    (t.step s (.fetchAdd c n)).Reports (s.step (.fetchAdd c n)) := by
  refine ⟨h.within, h.ordered, ?_, ?_⟩
  · intro c' hc'
    have hold := h.service c' hc'
    simp only [Tally.step]
    split
    · rename_i huncleared
      have hne : c' ≠ c := by
        intro heq
        exact h.not_uncleared hc' (heq ▸ huncleared)
      rw [Function.update_of_ne hne]
      exact hold
    · exact hold
  intro c'
  have htotal := h.total c'
  simp only [Tally.step, System.step, owed, current_fetchAdd] at htotal ⊢
  by_cases hc : c' = c
  · subst hc
    rw [Function.update_self, UInt64.ofNat_add, UInt64.ofNat_toNat, ← htotal]
    by_cases huncleared : Uncleared c' s.accessory.program
    · rw [if_pos huncleared, if_pos huncleared, if_pos huncleared, Function.update_self,
        UInt64.ofNat_add, UInt64.ofNat_toNat]
      ac_rfl
    · rw [if_neg huncleared, if_neg huncleared, if_neg huncleared, if_pos rfl]
      ac_rfl
  · have hmissed : (if Uncleared c s.accessory.program then
        Function.update t.missed c (t.missed c + n.toNat) else t.missed) c' = t.missed c' := by
      split
      · exact Function.update_of_ne hc _ _
      · rfl
    rw [Function.update_of_ne hc, hmissed, if_neg hc]
    exact htotal

/-- An instruction that does not concern the counter does not change whether it is cleared. -/
theorem uncleared_cons {c : Counter} {i : Instr} {rest : List Instr} (hload : i ≠ .load c)
    (hswap : i ≠ .swap c) (hclear : i ≠ .clear c) :
    Uncleared c (i :: rest) ↔ Uncleared c rest := by
  simp [Uncleared, hload.symm, hswap.symm, hclear.symm]

/-- A round that starts has reported nothing yet. -/
theorem not_uncleared_round (enabledGrpcService : Bool) (c : Counter) :
    ¬ Uncleared c (round enabledGrpcService) := by
  cases enabledGrpcService <;> cases c <;> decide

theorem Accessory.reportedSum_concat (a : Accessory) (rest : List Instr) (c c' : Counter)
    (v : UInt64) :
    Accessory.reportedSum ⟨rest, a.register, a.reported ++ [(c, v)]⟩ c' =
      a.reportedSum c' + if c = c' then v else 0 := by
  unfold Accessory.reportedSum
  by_cases hc : c = c' <;> simp [hc]

/-- Clearing a counter that was reported takes nothing away from the reports to come. -/
theorem owed_swapZero {m : ShredMetrics} {i : Instr} {rest : List Instr} {c c' : Counter}
    (hi : i = .swap c ∨ i = .clear c) (hload : .load c ∉ rest) :
    owed (m.swapZero c) rest c' = owed m (i :: rest) c' := by
  unfold owed
  by_cases hc : c' = c
  · subst hc
    have hbefore : Uncleared c' (i :: rest) := by
      rcases hi with rfl | rfl
      · exact ⟨by simpa using hload, Or.inl List.mem_cons_self⟩
      · exact ⟨by simpa using hload, Or.inr List.mem_cons_self⟩
    rw [if_pos hbefore, current_swapZero, if_pos rfl, ite_self]
  · have hsame : Uncleared c' (i :: rest) ↔ Uncleared c' rest := by
      rcases hi with rfl | rfl
      · exact uncleared_cons (by simp) (by simpa using Ne.symm hc) (by simp)
      · exact uncleared_cons (by simp) (by simp) (by simpa using Ne.symm hc)
    simp only [hsame, current_swapZero, if_neg hc]

/-- A step of the accessory thread moves what is owed into the reports, and loses nothing of it. -/
theorem Accessory.step_reports {a : Accessory} (h : ordered a.program = true) (m : ShredMetrics) :
    ordered (a.step m).1.program = true ∧ ∀ c,
      (a.step m).1.reportedSum c + owed (a.step m).2 (a.step m).1.program c =
        a.reportedSum c + owed m a.program c := by
  rcases a with ⟨_ | ⟨i, rest⟩, register, reported⟩
  · refine ⟨ordered_round _, fun c => ?_⟩
    have hidle : ¬ Uncleared c [] := by simp [Uncleared]
    have hsame : owed m (round m.enabledGrpcService) c = owed m [] c := by
      rw [owed, owed, if_neg (not_uncleared_round _ c), if_neg hidle]
    exact congrArg (_ + ·) hsame
  · cases i with
    | load c =>
        simp only [ordered, Bool.and_eq_true, Bool.or_eq_true, decide_eq_true_eq] at h
        refine ⟨h.2, fun c' => ?_⟩
        simp only [Accessory.step]
        rw [Accessory.reportedSum_concat ⟨.load c :: rest, register, reported⟩]
        unfold owed
        by_cases hc : c = c'
        · subst hc
          have hbefore : ¬ Uncleared c (.load c :: rest) := fun hu => hu.1 List.mem_cons_self
          have hafter : Uncleared c rest := h.1
          rw [if_pos rfl, if_pos hafter, if_neg hbefore, UInt64.add_zero]
        · have hsame : Uncleared c' (.load c :: rest) ↔ Uncleared c' rest :=
            uncleared_cons (by simpa using hc) (by simp) (by simp)
          simp only [if_neg hc, hsame, UInt64.add_zero]
    | take c =>
        simp only [ordered, Bool.and_eq_true, decide_eq_true_eq] at h
        refine ⟨h.2, fun c' => ?_⟩
        have hsame : Uncleared c' (.take c :: rest) ↔ Uncleared c' rest :=
          uncleared_cons (by simp) (by simp) (by simp)
        simp only [Accessory.step]
        rw [Accessory.reportedSum_concat ⟨.take c :: rest, register, reported⟩]
        unfold owed
        simp only [hsame, current_swapZero]
        by_cases hc : c = c'
        · subst hc
          have hnever : ¬ Uncleared c rest := fun hu => hu.2.elim h.1.1 h.1.2
          rw [if_pos rfl, if_pos rfl, if_neg hnever, if_neg hnever, UInt64.add_zero]
        · rw [if_neg hc, if_neg (Ne.symm hc), UInt64.add_zero]
    | swap c =>
        simp only [ordered, Bool.and_eq_true, decide_eq_true_eq] at h
        refine ⟨h.2, fun c' => ?_⟩
        simp only [Accessory.step]
        rw [owed_swapZero (Or.inl rfl) h.1.1.1]
        rfl
    | clear c =>
        simp only [ordered, Bool.and_eq_true, decide_eq_true_eq] at h
        refine ⟨h.2, fun c' => ?_⟩
        simp only [Accessory.step]
        rw [owed_swapZero (Or.inr rfl) h.1.1.1]
        rfl
    | publish k =>
        refine ⟨h, fun c => ?_⟩
        have hsame : Uncleared c (.publish k :: rest) ↔ Uncleared c rest :=
          uncleared_cons (by simp) (by simp) (by simp)
        simp only [Accessory.step, owed, hsame]
        rfl

/-- The accessory thread only executes operations of a round. -/
theorem Accessory.step_within {a : Accessory} (h : ∀ i ∈ a.program, i ∈ round true)
    (m : ShredMetrics) : ∀ i ∈ (a.step m).1.program, i ∈ round true := by
  rcases a with ⟨_ | ⟨i, rest⟩, register, reported⟩
  · simp only [Accessory.step]
    cases m.enabledGrpcService <;> decide
  · have hrest : ∀ i ∈ rest, i ∈ round true := fun i hi => h i (List.mem_cons_of_mem _ hi)
    cases i <;> exact hrest

/-- An operation of the accessory thread keeps the sum of the reports. -/
theorem Tally.Reports.accessory (h : t.Reports s) : t.Reports (s.step .accessory) := by
  rcases Accessory.step_reports h.ordered s.metrics with ⟨hordered, hsum⟩
  refine ⟨Accessory.step_within h.within s.metrics, hordered, h.service, fun c => ?_⟩
  simp only [System.step]
  rw [hsum c]
  exact h.total c

/-! ## Whole runs -/

/-- At every point of a run the counters add up to the tally. -/
theorem TallyRun.conserves_run (enabledGrpcService : Bool) (actions : List Action) :
    (run enabledGrpcService actions).tally.Conserves (run enabledGrpcService actions).system := by
  apply TallyRun.invariant
  · exact Tally.conserves_initial enabledGrpcService
  · exact fun t s c n h => h.fetchAdd c n
  · exact fun t s h => h.accessory
  · exact fun t s loop h => ⟨h.onTrack, h.total⟩

/-- At every point of a run the reports and what was missed add up to the tally. -/
theorem TallyRun.reports_run (enabledGrpcService : Bool) (actions : List Action) :
    (run enabledGrpcService actions).tally.Reports (run enabledGrpcService actions).system := by
  apply TallyRun.invariant
  · exact Tally.reports_initial enabledGrpcService
  · exact fun t s c n h => h.fetchAdd c n
  · exact fun t s h => h.accessory
  · exact fun t s loop h => ⟨h.within, h.ordered, h.service, h.total⟩

/-- Between two rounds the reports are complete up to what was missed. -/
theorem TallyRun.reportedSum_add_current {enabledGrpcService : Bool} {actions : List Action}
    (hidle : (run enabledGrpcService actions).system.accessory.program = []) (c : Counter) :
    (run enabledGrpcService actions).system.accessory.reportedSum c +
        (run enabledGrpcService actions).system.metrics.current c +
        UInt64.ofNat ((run enabledGrpcService actions).tally.missed c) =
      UInt64.ofNat ((run enabledGrpcService actions).tally.added c) := by
  have htotal := (reports_run enabledGrpcService actions).total c
  have hcleared : ¬ Uncleared c [] := by simp [Uncleared]
  rw [hidle, owed, if_neg hcleared] at htotal
  exact htotal

/-- No increment is lost or counted twice: at any time the cumulative counter, the current counter
and what a reset holds make up all increments, and between two rounds all reported values and the
current counter do. -/
def NothingLost (enabledGrpcService : Bool) (actions : List Action) : Prop :=
  ∀ before after, actions = before ++ after →
    let r := TallyRun.run enabledGrpcService before
    (∀ k : Cumulative, r.system.metrics.cumulative k + r.system.metrics.current k.source +
      r.system.accessory.held k = UInt64.ofNat (r.tally.added k.source)) ∧
    (r.system.accessory.program = [] → ∀ c, (∃ k : Cumulative, c = k.source) ∨ c.isService = true →
      r.system.accessory.reportedSum c + r.system.metrics.current c =
        UInt64.ofNat (r.tally.added c))

/-- Whenever a round is over, the increments of the four counters that came between the load of a
report and the swap of its reset amount to nothing in the width of the counters. -/
def NothingBetween (enabledGrpcService : Bool) (actions : List Action) : Prop :=
  ∀ before after, actions = before ++ after →
    (TallyRun.run enabledGrpcService before).system.accessory.program = [] →
    ∀ k : Cumulative, (TallyRun.run enabledGrpcService before).tally.missed k.source % 2 ^ 64 = 0

/-- In every interleaving, no increment is lost or counted twice if and only if none comes between
the report and the reset of its counter. -/
theorem nothing_lost_iff (enabledGrpcService : Bool) (actions : List Action) :
    NothingLost enabledGrpcService actions ↔ NothingBetween enabledGrpcService actions := by
  constructor
  · intro hlost before after hactions hidle k
    have hsum := TallyRun.reportedSum_add_current hidle k.source
    have hall := (hlost before after hactions).2 hidle k.source (Or.inl ⟨k, rfl⟩)
    rw [← hall, add_eq_left] at hsum
    exact ofNat_eq_zero_iff.mp hsum
  · intro hbetween before after hactions
    refine ⟨(TallyRun.conserves_run enabledGrpcService before).total, ?_⟩
    intro hidle c hc
    have hmissed : UInt64.ofNat ((TallyRun.run enabledGrpcService before).tally.missed c) = 0 := by
      rcases hc with ⟨k, rfl⟩ | hservice
      · exact ofNat_eq_zero_iff.mpr (hbetween before after hactions hidle k)
      · rw [(TallyRun.reports_run enabledGrpcService before).service c hservice]
        rfl
    have hsum := TallyRun.reportedSum_add_current hidle c
    rw [hmissed, UInt64.add_zero] at hsum
    exact hsum

/-- A packet is counted after the report has loaded the counter and before the reset swaps it
out: no report will ever contain it. -/
theorem increment_missed :
    ¬ NothingLost false ([.accessory, .accessory, .fetchAdd .received 1] ++
      List.replicate 23 .accessory) := by
  intro hlost
  have hall := (hlost _ [] (List.append_nil _).symm).2 (by decide) .received
    (Or.inl ⟨.aggReceivedCumulative, rfl⟩)
  exact absurd hall (by decide)

end ShredstreamProxy
