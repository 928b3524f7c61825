import ShredstreamProxy.Slot.Simulation

/-!
# No data shred is emitted twice

Every emitted range consists of positions that were not flagged as deshredded before and
are flagged afterwards, so ranges of one slot never overlap, whatever the ledger library
answers.  Since the machine that the code simulates never prunes, this also covers slots
whose entry is dropped and created again.

Main results:

- Theorem {lit}`runs_emitted`: the ranges emitted for one slot in a run are disjoint.
- Theorem {lit}`process_emitted_increasing`: one call emits in the order of slots and starts.
- Theorem {lit}`pushed_disjoint_and_increasing`: both facts about the code.
-/

namespace ShredstreamProxy

open Exec KeyedFold Segment

namespace Deshredded

/-- The data indexes an item was decoded from. -/
def range (d : Deshredded) : Set Nat := Set.Icc d.startDataCompleteIdx d.endDataCompleteIdx

/-- Order of two items by slot and start. -/
def Before (d d' : Deshredded) : Prop :=
  d.slot < d'.slot ∨ d.slot = d'.slot ∧ d.startDataCompleteIdx < d'.startDataCompleteIdx

end Deshredded

variable {ledger : Ledger} {slot : Slot}

/-! ## Emitted ranges of one slot -/

/-- The emitted ranges are nonempty, flagged, and pairwise disjoint. -/
structure EmittedOnce (σ : SlotState) (out : List Deshredded) : Prop where
  nonempty : ∀ d ∈ out, d.startDataCompleteIdx ≤ d.endDataCompleteIdx
  flagged : ∀ d ∈ out, ∀ i ∈ d.range, σ.deshredded i = true
  disjoint : out.Pairwise fun d d' => Disjoint d.range d'.range

/-- What was emitted stays so while the flags do. -/
theorem EmittedOnce.mono {σ σ' : SlotState} {out : List Deshredded} (h : EmittedOnce σ out)
    (heq : σ'.deshredded = σ.deshredded) : EmittedOnce σ' out :=
  ⟨h.nonempty, heq ▸ h.flagged, h.disjoint⟩

/-- A deshred attempt emits positions that were not flagged, and flags them. -/
theorem EmittedOnce.deshred {σ : SlotState} {out : List Deshredded} (h : EmittedOnce σ out)
    (f : FecSetIndex) :
    EmittedOnce (σ.deshred ledger slot f).1 (out ++ (σ.deshred ledger slot f).2.toList) := by
  rcases SlotState.deshred_cases ledger slot σ f with
    heq | ⟨a, e, u, entries, payload, hseg, _, heq⟩
  · rw [heq]
    simpa using h
  · rw [heq]
    refine ⟨?_, ?_, ?_⟩
    · intro d hd
      rcases List.mem_append.mp hd with hd | hd
      · exact h.nonempty d hd
      · obtain rfl : d = _ := by simpa using hd
        exact hseg.start_le.trans hseg.le_end
    · intro d hd i hi
      rw [SlotState.mark_deshredded_iff]
      rcases List.mem_append.mp hd with hd | hd
      · exact Or.inl (h.flagged d hd i hi)
      · obtain rfl : d = _ := by simpa using hd
        exact Or.inr hi
    · refine List.pairwise_append.mpr ⟨h.disjoint, by simp, ?_⟩
      intro d hd d' hd'
      obtain rfl : d' = _ := by simpa using hd'
      -- the old range is flagged, the new one is not
      refine Set.disjoint_left.mpr ?_
      intro i hi hi'
      have hflag := h.flagged d hd i hi
      have hfresh : σ.deshredded i = false := hseg.fresh i hi'.1 hi'.2
      rw [hfresh] at hflag
      contradiction

/-- The ranges emitted for one slot in a run of the machine are disjoint. -/
theorem runs_emitted (calls : List Call) (slot : Slot) :
    EmittedOnce ((Machine.runs ledger calls).machine.slots slot)
      ((Machine.runs ledger calls).emittedFor slot) := by
  refine Machine.runs_slot_invariant (P := EmittedOnce) slot calls ⟨by simp, by simp, by simp⟩
    ?_ ?_ ?_
  · intro σ out s σ' _ _ h hin
    rcases SlotState.ingest_eq_some_iff.mp hin with ⟨_, _, _, rfl⟩
    exact h.mono rfl
  · intro σ out order f _ h
    exact h.mono (SlotState.recover_spec ledger order σ f).deshredded_eq
  · intro σ out f _ h
    exact h.deshred f

/-! ## The order inside a call -/

/-- Attempts at increasing positions emit ranges with increasing starts. -/
theorem run_deshred_increasing {l : List FecSetIndex} (hl : l.Pairwise (· < ·)) (σ : SlotState) :
    (run (SlotState.deshred ledger slot) σ l).2.Pairwise (fun o o' => ∀ d d', o = some d →
        o' = some d' → d.startDataCompleteIdx < d'.startDataCompleteIdx) ∧
      ∀ d, some d ∈ (run (SlotState.deshred ledger slot) σ l).2 →
        (∃ f ∈ l, f ≤ d.endDataCompleteIdx) ∧ ∀ i ∈ d.range, σ.deshredded i = false := by
  induction l generalizing σ with
  | nil => exact ⟨List.Pairwise.nil, by simp [run]⟩
  | cons f l ih =>
      rw [List.pairwise_cons] at hl
      have htail := ih hl.2 (σ.deshred ledger slot f).1
      rcases SlotState.deshred_cases ledger slot σ f with
        heq | ⟨a, e, u, entries, payload, hseg, _, heq⟩
      · rw [heq] at htail
        simp only [run, heq]
        refine ⟨List.pairwise_cons.mpr ⟨by simp, htail.1⟩, ?_⟩
        intro d hd
        have hd' : some d ∈ (run (SlotState.deshred ledger slot) σ l).2 := by simpa using hd
        rcases htail.2 d hd' with ⟨⟨g, hg, hle⟩, hfresh⟩
        exact ⟨⟨g, List.mem_cons_of_mem f hg, hle⟩, hfresh⟩
      · rw [heq] at htail
        simp only [run, heq]
        refine ⟨List.pairwise_cons.mpr ⟨?_, htail.1⟩, ?_⟩
        · intro o' ho' d d' hd hd'
          subst hd'
          obtain rfl := Option.some.inj hd
          rcases htail.2 d' ho' with ⟨⟨g, hg, hle⟩, hfresh⟩
          -- the later range reaches beyond `f` and avoids the earlier one
          by_contra hlt
          have hfg := hl.1 g hg
          have hstart := hseg.start_le
          have hend := hseg.le_end
          have hin : a ∈ d'.range := by
            constructor
            · simpa using hlt
            · exact hstart.trans (hfg.le.trans hle)
          have hnot := hfresh a hin
          have hmark : (σ.mark a e).deshredded a = true :=
            SlotState.mark_deshredded_iff.mpr (Or.inr ⟨le_rfl, hstart.trans hend⟩)
          rw [hmark] at hnot
          contradiction
        · intro d hd
          rcases List.mem_cons.mp hd with hd | hd
          · obtain rfl := Option.some.inj hd
            exact ⟨⟨f, List.mem_cons_self, hseg.le_end⟩, fun i hi => hseg.fresh i hi.1 hi.2⟩
          · rcases htail.2 d hd with ⟨⟨g, hg, hle⟩, hfresh⟩
            refine ⟨⟨g, List.mem_cons_of_mem f hg, hle⟩, ?_⟩
            intro i hi
            have hi' := hfresh i hi
            rw [← Bool.not_eq_true, SlotState.mark_deshredded_iff, not_or] at hi'
            simpa using hi'.1

/-- One call emits in the order of slots and starts. -/
theorem process_emitted_increasing (order : IterOrder) (m : Machine) (shreds : List Shred) :
    (m.process ledger order shreds).emitted.Pairwise Deshredded.Before := by
  simp only [Machine.process]
  set work := sortDedup lexLe (shreds.foldl (Feed.ingest ledger) m.toFeed).work with hwork
  set slots := (keyedRun (fun _ σ f => SlotState.recover ledger order σ f)
    (shreds.foldl (Feed.ingest ledger) m.toFeed).slots work).1
  have hsorted : work.Pairwise lexLe := pairwise_sortDedup _
  have hkeys : (keyedRun (fun slot σ f => SlotState.deshred ledger slot σ f) slots work).2.Pairwise
      fun p q => p.1 ≤ q.1 := by
    rw [← List.pairwise_map (f := Prod.fst) (R := (· ≤ ·)), keyedRun_keys, List.pairwise_map]
    refine hsorted.imp ?_
    intro p q hle
    rcases hle with h | h
    · exact h.le
    · exact h.1.le
  have hparts : ∀ slot, (atKey slot
      (keyedRun (fun slot σ f => SlotState.deshred ledger slot σ f) slots work).2).Pairwise
        fun o o' => ∀ d d', o = some d → o' = some d' →
          d.startDataCompleteIdx < d'.startDataCompleteIdx := by
    intro slot
    rw [keyedRun_outputs]
    refine (run_deshred_increasing ?_ _).1
    rw [hwork, atKey_sortDedup]
    exact pairwise_lt_sortDedup _
  refine List.pairwise_filterMap.mpr ((pairwise_lex_of_atKey hkeys hparts).imp_of_mem ?_)
  intro p q hp hq hpq d hd d' hd'
  have hslot := Machine.keyedRun_deshred_slot slots work p hp d hd
  have hslot' := Machine.keyedRun_deshred_slot slots work q hq d' hd'
  unfold Deshredded.Before
  rw [hslot, hslot']
  rcases hpq with h | ⟨h, hstart⟩
  · exact Or.inl h
  · exact Or.inr ⟨h, hstart d d' hd hd'⟩

/-! ## The code -/

/-- What holds between the items of every slot holds between items of one slot. -/
theorem pairwise_of_filter {R : Deshredded → Deshredded → Prop} {l : List Deshredded}
    (h : ∀ slot, (l.filter fun d => d.slot = slot).Pairwise R) :
    l.Pairwise fun d d' => d.slot = d'.slot → R d d' := by
  rw [List.pairwise_iff_forall_sublist]
  intro d d' hsub heq
  refine List.pairwise_iff_forall_sublist.mp (h d.slot) ?_
  have hpair : [d, d'].filter (fun x => x.slot = d.slot) = [d, d'] := by simp [heq]
  rw [← hpair]
  exact hsub.filter _

/-- Along every run, the ranges pushed for one slot are nonempty and pairwise disjoint, and
every call pushes in strictly increasing order of slot and start. -/
theorem pushed_disjoint_and_increasing (ledger : Ledger) (calls : List Call) :
    ∃ h, runCalls ledger calls = .ok h ∧
      (∀ d ∈ h.pushed, d.startDataCompleteIdx ≤ d.endDataCompleteIdx) ∧
      (h.pushed.Pairwise fun d d' => d.slot = d'.slot → Disjoint d.range d'.range) ∧
      ∀ r ∈ h.results, r.deshreddedEntries.Pairwise Deshredded.Before := by
  rcases runCalls_sim ledger calls with ⟨h, hh, _, hall⟩
  have hpushed : h.pushed = (Machine.runs ledger calls).outcomes.flatMap Outcome.emitted :=
    pushed_eq_emitted hall
  have hslots : ∀ slot, h.pushed.filter (fun d => d.slot = slot) =
      (Machine.runs ledger calls).emittedFor slot := fun slot => by rw [hpushed]; rfl
  refine ⟨h, hh, ?_, ?_, ?_⟩
  · intro d hd
    refine (@runs_emitted ledger calls d.slot).nonempty d ?_
    rw [← hslots]
    exact List.mem_filter.mpr ⟨hd, by simp⟩
  · refine pairwise_of_filter ?_
    intro slot
    rw [hslots]
    exact (runs_emitted calls slot).disjoint
  · intro r hr
    rcases exists_matching hall hr with ⟨o, ho, hmatch⟩
    rcases Machine.exists_of_mem_outcomes ho with ⟨m, c, _, rfl⟩
    rw [hmatch.emitted]
    exact process_emitted_increasing c.order m _

end ShredstreamProxy
