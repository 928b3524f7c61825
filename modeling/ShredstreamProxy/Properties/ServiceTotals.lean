import ShredstreamProxy.Slot.Simulation

/-!
# The service metrics of the reconstructor

Every attempt to deshred an erasure set that found a segment ends in one of three ways: its
payload cannot be joined, its payload cannot be decoded, or its entries are pushed.  The counters
that the loop adds to are compared here with the items that were really pushed, over one attempt,
over the deshred loop of a call and over a whole run.

Main results:

- Theorem {lit}`deshredFecSet_cases`: what an attempt can push and count.
- Theorem {lit}`ServiceMetrics.Accounts.add`: parts that are accounted for add up.
- Theorem {lit}`service_metrics_account`: the counters agree with the pushed items, along every
  run.
-/

namespace ShredstreamProxy

open Exec

variable {ledger : Ledger}

namespace Deshredded

/-- The transactions of an item. -/
def txnCount (d : Deshredded) : Nat := (d.entries.map fun e => e.transactions.length).sum

end Deshredded

/-- The counters agree with the pushed items after a number of attempts: entries and transactions
are those of the items, an attempt with an unknown start pushed an item or was counted as an
error, and no attempt was counted twice. -/
structure ServiceMetrics.Accounts (m : ServiceMetrics) (pushed : List Deshredded)
    (attempts : Nat) : Prop where
  entryCount : m.entryCount = (pushed.map fun d => d.entries.length).sum
  txnCount : m.txnCount = (pushed.map Deshredded.txnCount).sum
  unknownStart : m.unknownStartPositionCount =
    pushed.countP Deshredded.unknownStart + m.unknownStartPositionErrorCount
  errors_le : m.unknownStartPositionErrorCount ≤
    m.fecRecoveryErrorCount + m.bincodeDeserializeErrorCount
  attempts_le : pushed.length + m.fecRecoveryErrorCount + m.bincodeDeserializeErrorCount ≤ attempts

namespace ServiceMetrics.Accounts

/-- No attempt, no item and no error. -/
theorem zero : ServiceMetrics.zero.Accounts [] 0 := by
  constructor <;> simp [ServiceMetrics.zero]

variable {m m' : ServiceMetrics} {pushed pushed' : List Deshredded} {n n' : Nat}

/-- Parts that are accounted for add up. -/
theorem add (h : m.Accounts pushed n) (h' : m'.Accounts pushed' n') :
    (m.add m').Accounts (pushed ++ pushed') (n + n') where
  entryCount := by
    rw [List.map_append, List.sum_append, ← h.entryCount, ← h'.entryCount]
    rfl
  txnCount := by
    rw [List.map_append, List.sum_append, ← h.txnCount, ← h'.txnCount]
    rfl
  unknownStart := by
    have h₁ := h.unknownStart
    have h₂ := h'.unknownStart
    rw [List.countP_append]
    simp only [ServiceMetrics.add]
    omega
  errors_le := by
    have h₁ := h.errors_le
    have h₂ := h'.errors_le
    simp only [ServiceMetrics.add]
    omega
  attempts_le := by
    have h₁ := h.attempts_le
    have h₂ := h'.attempts_le
    rw [List.length_append]
    simp only [ServiceMetrics.add]
    omega

/-- The count of recovered shreds plays no part. -/
theorem recovered (h : m.Accounts pushed n) (count : Nat) :
    ServiceMetrics.Accounts { m with recoveredCount := count } pushed n :=
  ⟨h.entryCount, h.txnCount, h.unknownStart, h.errors_le, h.attempts_le⟩

/-- A failed attempt counts one error. -/
theorem failure (unknownStart deserializing : Bool) :
    (failureMetrics unknownStart deserializing).Accounts [] 1 := by
  cases unknownStart <;> cases deserializing <;> constructor <;> simp [failureMetrics]

/-- A successful attempt counts the entries and transactions of its item. -/
theorem success (d : Deshredded) :
    (successMetrics d.unknownStart d.entries).Accounts [d] 1 := by
  constructor
  · simp [successMetrics]
  · simp [successMetrics, Deshredded.txnCount]
  · cases hd : d.unknownStart <;> simp [successMetrics, hd]
  · simp [successMetrics]
  · simp [successMetrics]

end ServiceMetrics.Accounts

/-! ## One call -/

/-- An attempt finds no segment and counts nothing, finds one and counts a failure, or pushes an
item and counts what is in it. -/
theorem deshredFecSet_cases {slot : Slot} {f : FecSetIndex} {tracker : ShredsStateTracker}
    {r : ShredsStateTracker × Option Deshredded × ServiceMetrics}
    (h : deshredFecSet ledger slot f tracker = .ok r) :
    r.2 = (none, ServiceMetrics.zero) ∨ (∃ u b, r.2 = (none, failureMetrics u b)) ∨
      ∃ d, r.2 = (some d, successMetrics d.unknownStart d.entries) := by
  unfold deshredFecSet at h
  rcases bind_eq_ok_iff.mp h with ⟨found, _, h⟩
  cases found with
  | none =>
      obtain rfl := Except.ok.inj h
      exact Or.inl rfl
  | some segment =>
      rcases bind_eq_ok_iff.mp h with ⟨toDeshred, _, h⟩
      rcases bind_eq_ok_iff.mp h with ⟨shreds, _, h⟩
      right
      split at h
      · obtain rfl := Except.ok.inj h
        exact Or.inl ⟨_, _, rfl⟩
      · split at h
        · obtain rfl := Except.ok.inj h
          exact Or.inl ⟨_, _, rfl⟩
        · rcases bind_eq_ok_iff.mp h with ⟨marked, _, h⟩
          obtain rfl := Except.ok.inj h
          exact Or.inr ⟨_, rfl⟩

/-- The metrics of one attempt account for it. -/
theorem accounts_of_deshredFecSet {slot : Slot} {f : FecSetIndex} {tracker : ShredsStateTracker}
    {r : ShredsStateTracker × Option Deshredded × ServiceMetrics}
    (h : deshredFecSet ledger slot f tracker = .ok r) : r.2.2.Accounts r.2.1.toList 1 := by
  rcases deshredFecSet_cases h with heq | ⟨u, b, heq⟩ | ⟨d, heq⟩
  · rw [heq]
    have hzero := ServiceMetrics.Accounts.zero
    exact { hzero with attempts_le := hzero.attempts_le.trans (Nat.zero_le 1) }
  · rw [heq]
    exact ServiceMetrics.Accounts.failure u b
  · rw [heq]
    exact ServiceMetrics.Accounts.success d

/-- The deshred loop keeps the account, with one attempt for each of its iterations. -/
theorem accounts_of_foldlM_deshredStep {work : List (Slot × FecSetIndex)} {acc acc' : DeshredState}
    {n : Nat} (h : work.foldlM (deshredStep ledger) acc = .ok acc')
    (hacc : acc.metrics.Accounts acc.deshreddedEntries n) :
    acc'.metrics.Accounts acc'.deshreddedEntries (n + work.length) := by
  induction work generalizing acc n with
  | nil =>
      obtain rfl := Except.ok.inj h
      exact hacc
  | cons w work ih =>
      rw [List.foldlM_cons] at h
      rcases bind_eq_ok_iff.mp h with ⟨acc₁, hstep, hrest⟩
      unfold deshredStep at hstep
      rcases bind_eq_ok_iff.mp hstep with ⟨r, hr, heq⟩
      have hnext : acc₁.metrics.Accounts acc₁.deshreddedEntries (n + 1) := by
        obtain rfl := Except.ok.inj heq
        exact hacc.add (accounts_of_deshredFecSet hr)
      have hlength : n + (w :: work).length = n + 1 + work.length := by
        rw [List.length_cons]
        omega
      rw [hlength]
      exact ih hrest hnext

/-- Each call accounts for what it pushes, with at most one attempt for each erasure set that a
shred was accepted for. -/
theorem accounts_of_reconstructShreds {call : Call} {state : ProxyState} {r : CallResult}
    (h : reconstructShreds ledger call state = .ok r) :
    r.metrics.Accounts r.deshreddedEntries r.slotFecIndexesToIterate.length ∧
      r.metrics.recoveredCount = r.recoveredCount := by
  unfold reconstructShreds at h
  rcases bind_eq_ok_iff.mp h with ⟨r₀, hr₀, h⟩
  rcases bind_eq_ok_iff.mp h with ⟨pruned, _, h⟩
  obtain rfl := Except.ok.inj h
  unfold reconstructShredsNoRetain at hr₀
  rcases bind_eq_ok_iff.mp hr₀ with ⟨ingested, _, hr₀⟩
  rcases bind_eq_ok_iff.mp hr₀ with ⟨recovered, _, hr₀⟩
  rcases bind_eq_ok_iff.mp hr₀ with ⟨deshredded, hloop, hr₀⟩
  obtain rfl := Except.ok.inj hr₀
  have haccount := accounts_of_foldlM_deshredStep hloop ServiceMetrics.Accounts.zero
  rw [Nat.zero_add] at haccount
  exact ⟨haccount.recovered _, rfl⟩

/-! ## Whole runs -/

namespace History

/-- Everything the calls added to the service metrics. -/
def metrics (h : History) : ServiceMetrics :=
  h.results.foldl (fun m r => m.add r.metrics) ServiceMetrics.zero

/-- The erasure sets that the calls tried to deshred. -/
def attempts (h : History) : Nat :=
  (h.results.map fun r => r.slotFecIndexesToIterate.length).sum

/-- Metrics that account for each call add up to an account of all calls. -/
theorem accounts_of_results {results : List CallResult}
    (h : ∀ r ∈ results, r.metrics.Accounts r.deshreddedEntries r.slotFecIndexesToIterate.length ∧
      r.metrics.recoveredCount = r.recoveredCount) :
    (results.foldl (fun m r => m.add r.metrics) ServiceMetrics.zero).Accounts
        (results.flatMap CallResult.deshreddedEntries)
        (results.map fun r => r.slotFecIndexesToIterate.length).sum ∧
      (results.foldl (fun m r => m.add r.metrics) ServiceMetrics.zero).recoveredCount =
        (results.map CallResult.recoveredCount).sum := by
  induction results using List.reverseRecOn with
  | nil => exact ⟨ServiceMetrics.Accounts.zero, rfl⟩
  | append_singleton results r ih =>
      have hprev := ih fun r hr => h r (List.mem_append_left _ hr)
      have hlast := h r (by simp)
      simp only [List.foldl_append, List.foldl_cons, List.foldl_nil, List.flatMap_append,
        List.flatMap_singleton, List.map_append, List.map_singleton, List.sum_append,
        List.sum_singleton]
      refine ⟨hprev.1.add hlast.1, ?_⟩
      rw [← hprev.2, ← hlast.2]
      rfl

end History

/-- What holds of the result of every call holds of the results of a run. -/
theorem forall_results_of_runCalls {P : CallResult → Prop} {calls : List Call} {h : History}
    (hrun : runCalls ledger calls = .ok h)
    (hcall : ∀ call state r, reconstructShreds ledger call state = .ok r → P r) :
    ∀ r ∈ h.results, P r := by
  induction calls using List.reverseRecOn generalizing h with
  | nil =>
      obtain rfl := Except.ok.inj hrun
      exact fun r hr => absurd hr List.not_mem_nil
  | append_singleton calls call ih =>
      rcases runCalls_concat.mp hrun with ⟨h₁, r₁, hh₁, hr₁, rfl⟩
      intro r hr
      rcases List.mem_append.mp hr with hr | hr
      · exact ih hh₁ r hr
      · rw [List.mem_singleton.mp hr]
        exact hcall call h₁.state r₁ hr₁

/-- The metrics of a run account for what it pushed and attempted. -/
theorem accounts_of_runCalls {calls : List Call} {h : History}
    (hrun : runCalls ledger calls = .ok h) :
    h.metrics.Accounts h.pushed h.attempts ∧
      h.metrics.recoveredCount = (h.results.map CallResult.recoveredCount).sum := by
  apply History.accounts_of_results
  exact forall_results_of_runCalls hrun fun call state r => accounts_of_reconstructShreds

/-- Along every run, the entries and transactions counted are those of the items pushed, the
recovered shreds counted are those that the calls returned, every attempt with an unknown start
pushed an item or was counted as an error of that kind, and the items together with the errors of
both kinds are at most the erasure sets that shreds were accepted for. -/
theorem service_metrics_account (ledger : Ledger) (calls : List Call) :
    ∃ h, runCalls ledger calls = .ok h ∧ h.metrics.Accounts h.pushed h.attempts ∧
      h.metrics.recoveredCount = (h.results.map CallResult.recoveredCount).sum := by
  rcases runCalls_sim ledger calls with ⟨h, hrun, _, _⟩
  exact ⟨h, hrun, accounts_of_runCalls hrun⟩

end ShredstreamProxy
