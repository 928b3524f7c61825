import ShredstreamProxy.Slot.Simulation

/-!
# The tracker's representation invariant

What the unwraps, slices and scans of the code rely on is a relation between the four
vectors of a tracker and the erasure sets beside it.  This module states it on the
vectors themselves and shows that it holds in every state a run reaches, that no call
panics, and that what is recorded for a slot is never taken back while the slot stays in
the map.

Main results:

- Theorem {lit}`SlotEntry.repInv_of_view`: the invariant of the view, read on the vectors.
- Theorem {lit}`SlotState.process_le`: a call only adds to a slot.
- Theorem {lit}`reachable_repInv`: the invariant, freedom from panics and persistence along
  every run.
-/

namespace ShredstreamProxy

open Exec KeyedFold

/-! ## The invariant on the vectors -/

/-- How the vectors of an entry and its erasure sets belong together. -/
structure SlotEntry.RepInv (slot : Slot) (entry : SlotEntry) : Prop where
  dataStatus_length : entry.stateTracker.dataStatus.length = maxDataShredsPerSlot
  dataShreds_length : entry.stateTracker.dataShreds.length = maxDataShredsPerSlot
  recovered_length : entry.stateTracker.alreadyRecoveredFecSets.length = maxDataShredsPerSlot
  deshredded_length : entry.stateTracker.alreadyDeshredded.length = maxDataShredsPerSlot
  unknown_iff : ∀ i : Nat, entry.stateTracker.dataStatus[i]? = some .unknown ↔
    entry.stateTracker.dataShreds[i]? = some none
  stored : ∀ (i : Nat) s, entry.stateTracker.dataShreds[i]? = some (some s) →
    s.shredType = .data ∧ s.slot = slot ∧ s.index = i ∧
      (entry.stateTracker.dataStatus[i]? = some .dataComplete ↔ s.completes = true)
  deshredded : ∀ i : Nat, entry.stateTracker.alreadyDeshredded[i]? = some true →
    ∃ s, entry.stateTracker.dataShreds[i]? = some (some s) ∧
      entry.stateTracker.alreadyRecoveredFecSets[s.fecSetIndex]? = some true ∧
      (entry.stateTracker.dataStatus[i]? = some .notDataComplete →
        i + 1 < maxDataShredsPerSlot ∧
          entry.stateTracker.alreadyDeshredded[i + 1]? = some true)
  bucket : ∀ (f : FecSetIndex) l, entry.fecSets[f]? = some l → ∀ s ∈ l,
    s.fecSetIndex = f ∧ s.slot = slot ∧
      (s.shredType = .data → entry.stateTracker.dataShreds[s.index]? = some (some s))

theorem getElem?_join_eq_some {v : List (Option Shred)} {i : Nat} {s : Shred} :
    v[i]?.join = some s ↔ v[i]? = some (some s) := by
  cases v[i]? with
  | none => simp
  | some o => simp

theorem getElem?_getD_eq_true {v : List Bool} {i : Nat} :
    v[i]?.getD false = true ↔ v[i]? = some true := by
  cases v[i]? with
  | none => simp
  | some b => simp

theorem getElem?_getD_eq_false {v : List Bool} {i : Nat} :
    v[i]?.getD false = false ↔ v[i]? ≠ some true := by
  rw [← Bool.not_eq_true, Ne, not_iff_not]
  exact getElem?_getD_eq_true

/-- The invariant of the view, read on the vectors. -/
theorem SlotEntry.repInv_of_view {slot : Slot} {entry : SlotEntry} (h : entry.WF)
    (hinv : entry.view.Inv slot) : entry.RepInv slot := by
  have hstatus : ∀ i : Nat, entry.stateTracker.dataStatus[i]? =
      entry.stateTracker.dataShreds[i]?.map statusOf := by
    intro i
    rw [h.status, List.getElem?_map]
  have hshred : ∀ {i : Nat} {s : Shred}, entry.view.dataShreds i = some s ↔
      entry.stateTracker.dataShreds[i]? = some (some s) := getElem?_join_eq_some
  have hflag : ∀ {i : Nat}, entry.view.deshredded i = true ↔
      entry.stateTracker.alreadyDeshredded[i]? = some true := getElem?_getD_eq_true
  have hset : ∀ {f : Nat}, entry.view.recovered f = true ↔
      entry.stateTracker.alreadyRecoveredFecSets[f]? = some true := getElem?_getD_eq_true
  refine ⟨h.dataStatus_length, h.dataShreds_length, h.recovered_length, h.deshredded_length,
    ?_, ?_, ?_, ?_⟩
  · intro i
    rw [hstatus]
    rcases hpos : entry.stateTracker.dataShreds[i]? with _ | _ | s
    · simp
    · simp [statusOf]
    · cases hc : s.completes <;> simp [statusOf, hc]
  · intro i s hs
    have hold := hinv.stored i s (hshred.mpr hs)
    refine ⟨hold.1, hold.2.1, hold.2.2.1, ?_⟩
    rw [hstatus, hs]
    cases hc : s.completes <;> simp [statusOf, hc]
  · intro i hi
    rcases hinv.deshredded i (hflag.mpr hi) with ⟨s, hs, hrec, hnext⟩
    refine ⟨s, hshred.mp hs, hset.mp hrec, ?_⟩
    intro hnot
    rw [hstatus, hshred.mp hs] at hnot
    have hc : s.completes = false := by
      cases hc : s.completes with
      | false => rfl
      | true => simp [statusOf, hc] at hnot
    exact ⟨(hnext hc).1, hflag.mp (hnext hc).2⟩
  · intro f l hl s hs
    have hmem : s ∈ entry.view.held f := by
      rw [held_view, hl]
      exact hs
    have hold := hinv.held f s hmem
    exact ⟨hold.1, hold.2.1, fun htype => hshred.mp (hold.2.2 htype)⟩

/-! ## Nothing is taken back -/

namespace SlotState

/-- Everything recorded in the first state is recorded in the second one. -/
structure Le (σ τ : SlotState) : Prop where
  dataShreds : ∀ i s, σ.dataShreds i = some s → τ.dataShreds i = some s
  recovered : ∀ f, σ.recovered f = true → τ.recovered f = true
  deshredded : ∀ i, σ.deshredded i = true → τ.deshredded i = true

variable {ledger : Ledger} {order : IterOrder} {slot : Slot} {σ τ υ : SlotState}

theorem Le.refl (σ : SlotState) : Le σ σ :=
  ⟨fun _ _ h => h, fun _ h => h, fun _ h => h⟩

theorem Le.trans (h : Le σ τ) (h' : Le τ υ) : Le σ υ where
  dataShreds := fun i s hs => h'.dataShreds i s (h.dataShreds i s hs)
  recovered := fun f hf => h'.recovered f (h.recovered f hf)
  deshredded := fun i hi => h'.deshredded i (h.deshredded i hi)

/-- Taking a shred only adds to a slot. -/
theorem ingest_le {s : Shred} (h : σ.ingest ledger s = some τ) : Le σ τ := by
  rcases ingest_eq_some_iff.mp h with ⟨_, _, _, hτ⟩
  refine ⟨fun i t ht => stored_mono_ingest h ht, ?_, ?_⟩
  · rw [hτ]
    exact fun _ h => h
  · rw [hτ]
    exact fun _ h => h

/-- A recovery attempt only adds to a slot. -/
theorem recover_le (f : FecSetIndex) : Le σ (σ.recover ledger order f).1 := by
  have hspec := recover_spec ledger order σ f
  refine ⟨hspec.mono, ?_, ?_⟩
  · intro g hg
    rw [hspec.recovered_eq]
    split
    · by_cases hgf : g = f <;> simp [hgf, hg]
    · exact hg
  · intro i hi
    rw [hspec.deshredded_eq]
    exact hi

/-- A deshred attempt only adds to a slot. -/
theorem deshred_le (f : FecSetIndex) : Le σ (σ.deshred ledger slot f).1 := by
  rcases deshred_cases ledger slot σ f with heq | ⟨a, e, u, entries, payload, _, _, heq⟩
  · rw [heq]
    exact Le.refl σ
  · rw [heq]
    exact ⟨fun _ _ h => h, fun _ h => mark_recovered_iff.mpr (Or.inl h),
      fun _ h => mark_deshredded_iff.mpr (Or.inl h)⟩

/-- The deshred loop only adds to a slot. -/
theorem run_deshred_le (σ : SlotState) (l : List FecSetIndex) :
    Le σ (run (deshred ledger slot) σ l).1 :=
  (run_invariant (deshred ledger slot) (P := fun τ => Le σ τ) (Q := fun _ _ => True)
    (fun _ f _ h => ⟨h.trans (deshred_le f), trivial⟩) (Le.refl σ)).1

/-- A call only adds to a slot. -/
theorem process_le (shreds : List Shred) : Le σ (σ.process ledger order slot shreds).1 := by
  refine process_invariant (P := fun τ _ => Le σ τ) [] (Le.refl σ) ?_ ?_ ?_
  · exact fun τ _ s τ' _ h hin => h.trans (ingest_le hin)
  · exact fun τ _ f _ h => h.trans (recover_le f)
  · exact fun τ _ f _ h => h.trans (deshred_le f)

end SlotState

/-! ## The code -/

variable {ledger : Ledger}

/-- A slot that is kept was not to be dropped. -/
theorem SlotMap.mem_retained {m : SlotMap} {highestSlotSeen slot : Slot}
    (h : slot ∈ m.retained highestSlotSeen) :
    ¬ (maxProcessingAge < m.size ∧ slot < highestSlotSeen - slotLookback) := by
  intro hold
  rw [Std.ExtTreeMap.mem_iff_isSome_getElem?, SlotMap.getElem?_retained, if_pos hold] at h
  contradiction

/-- A slot that a call leaves in the map was processed by the one-slot call. -/
theorem view_of_reconstructShreds {state : ProxyState} (hgood : state.allShreds.Good) {call : Call}
    {r : CallResult} (h : reconstructShreds ledger call state = .ok r) {slot : Slot}
    (hmem : slot ∈ r.state.allShreds) :
    r.state.allShreds.view slot =
      ((state.allShreds.view slot).process ledger call.order slot
        (state.view.offered ledger (call.shreds ledger) slot)).1 := by
  rcases @reconstructShredsNoRetain_refines ledger state hgood call with
    ⟨r₀, hr₀, hgood₀, hview, _, _⟩
  rcases reconstructShreds_eq hr₀ hgood₀ with ⟨r', hr', hstate, _⟩
  rw [h] at hr'
  obtain rfl := Except.ok.inj hr'
  rw [hstate] at hmem ⊢
  simp only [SlotMap.view_retained, if_neg (SlotMap.mem_retained hmem)]
  exact (congrFun (congrArg Machine.slots hview) slot).trans (Machine.process_slot _ _ _)

/-- The entry of a slot keeps what it records as long as the slot stays in the map. -/
def SlotEntry.Extends (entry entry' : SlotEntry) : Prop :=
  (∀ (i : Nat) s, entry.stateTracker.dataShreds[i]? = some (some s) →
      entry'.stateTracker.dataShreds[i]? = some (some s)) ∧
    (∀ f : Nat, entry.stateTracker.alreadyRecoveredFecSets[f]? = some true →
      entry'.stateTracker.alreadyRecoveredFecSets[f]? = some true) ∧
    ∀ i : Nat, entry.stateTracker.alreadyDeshredded[i]? = some true →
      entry'.stateTracker.alreadyDeshredded[i]? = some true

theorem SlotEntry.extends_of_le {entry entry' : SlotEntry} (h : entry.view.Le entry'.view) :
    entry.Extends entry' := by
  refine ⟨?_, ?_, ?_⟩
  · exact fun i s hs => getElem?_join_eq_some.mp (h.dataShreds i s (getElem?_join_eq_some.mpr hs))
  · exact fun f hf => getElem?_getD_eq_true.mp (h.recovered f (getElem?_getD_eq_true.mpr hf))
  · exact fun i hi => getElem?_getD_eq_true.mp (h.deshredded i (getElem?_getD_eq_true.mpr hi))

/-- While a slot stays tracked, the calls only add to it. -/
theorem view_le_of_runCalls {calls more : List Call} {h h' : History} {slot : Slot}
    (hh : runCalls ledger calls = .ok h) (hh' : runCalls ledger (calls ++ more) = .ok h')
    (hstays : ∀ k ≤ more.length, ∀ hk, runCalls ledger (calls ++ more.take k) = .ok hk →
      slot ∈ hk.state.allShreds) :
    (h.state.allShreds.view slot).Le (h'.state.allShreds.view slot) := by
  induction more using List.reverseRecOn generalizing h' with
  | nil =>
      rw [List.append_nil, hh] at hh'
      obtain rfl := Except.ok.inj hh'
      exact SlotState.Le.refl _
  | append_singleton more call ih =>
      rcases runCalls_sim ledger (calls ++ more) with ⟨h₁, hh₁, hsim, _⟩
      have hprev : (h.state.allShreds.view slot).Le (h₁.state.allShreds.view slot) := by
        refine ih hh₁ ?_
        intro k hk hist hhist
        refine hstays k (by simp; omega) hist ?_
        rwa [List.take_append_of_le_length hk]
      have hmem : slot ∈ h'.state.allShreds := by
        refine hstays (more ++ [call]).length le_rfl h' ?_
        rwa [List.take_length]
      rw [← List.append_assoc, runCalls_concat] at hh'
      rcases hh' with ⟨h₂, r, hh₂, hr, rfl⟩
      rw [hh₁] at hh₂
      obtain rfl := Except.ok.inj hh₂
      refine hprev.trans ?_
      rw [view_of_reconstructShreds hsim.good hr hmem]
      exact SlotState.process_le _

/-- No run panics; in every state it reaches, each slot entry satisfies the representation
invariant; and later calls keep what the entry of a slot records while the slot stays in
the map. -/
theorem reachable_repInv (ledger : Ledger) (calls : List Call) :
    ∃ h, runCalls ledger calls = .ok h ∧
      (∀ (slot : Slot) (entry : SlotEntry), h.state.allShreds[slot]? = some entry →
        entry.RepInv slot) ∧
      ∀ more h', runCalls ledger (calls ++ more) = .ok h' → ∀ slot : Slot,
        (∀ k ≤ more.length, ∀ hk, runCalls ledger (calls ++ more.take k) = .ok hk →
          slot ∈ hk.state.allShreds) →
        ∀ entry entry' : SlotEntry, h.state.allShreds[slot]? = some entry →
          h'.state.allShreds[slot]? = some entry' → entry.Extends entry' := by
  rcases runCalls_sim ledger calls with ⟨h, hh, hsim, _⟩
  refine ⟨h, hh, ?_, ?_⟩
  · intro slot entry hentry
    have hgood := hsim.good slot
    rw [SlotMap.entry_of_getElem? hentry] at hgood
    exact SlotEntry.repInv_of_view hgood.1 hgood.2
  · intro more h' hh' slot hstays entry entry' hentry hentry'
    have hle := view_le_of_runCalls hh hh' hstays
    unfold SlotMap.view at hle
    rw [SlotMap.entry_of_getElem? hentry, SlotMap.entry_of_getElem? hentry'] at hle
    exact SlotEntry.extends_of_le hle

end ShredstreamProxy
