import ShredstreamProxy.Properties.Provenance
import ShredstreamProxy.Slot.Attempt

/-!
# The report of missed erasure sets

When the pruning step drops a slot it reports the erasure sets of the slot that were never
completed.  A slot may be dropped more than once, because a stale packet creates its entry again;
its sets must not be reported again then.  This module compares the reports of a whole run with
what the run took in and pushed.

Main results:

- Theorem {lit}`SlotEntry.reports`: the report of one entry.
- Theorem {lit}`prune_eq`: the reports of one pruning step, in closed form.
- Theorem {lit}`reported_of_runCalls`: the reports of a run are those of a machine that never
  prunes.
- Theorem {lit}`missed_sets_accounted`: every erasure set that took a shred is still held, was
  reported exactly once, or was completed.
-/

namespace ShredstreamProxy

open Exec KeyedFold Segment

variable {ledger : Ledger} {slot : Slot}

/-! ## One report -/

/-- The set has an entry and was not completed. -/
def SlotState.Missed (σ : SlotState) (f : FecSetIndex) : Prop :=
  (σ.fecSets f).isSome ∧ σ.recovered f = false

/-- The report lists the missed sets of a slot in ascending order, each with the number of shreds
held for it. -/
structure SlotState.Reports (σ : SlotState) (report : List (FecSetIndex × Nat × Nat)) : Prop where
  ascending : (report.map Prod.fst).Pairwise (· < ·)
  held_eq : ∀ x ∈ report, x.2.2 = (σ.held x.1).length
  mem_iff : ∀ f, f ∈ report.map Prod.fst ↔ σ.Missed f

theorem SlotState.not_missed_initial (f : FecSetIndex) : ¬ SlotState.initial.Missed f := by
  rintro ⟨h, _⟩
  contradiction

/-- The report of an entry, in closed form. -/
def SlotEntry.report (order : IterOrder) (e : SlotEntry) : List (FecSetIndex × Nat × Nat) :=
  (e.fecSets.toList.filter fun p => !e.view.recovered p.1).map fun p =>
    (p.1, (getDataShredInfo (order.iter p.2)).numExpectedDataShreds, p.2.length)

/-- The loop over the sets of an entry appends those that were not completed. -/
theorem foldlM_reportIncomplete {order : IterOrder} {e : SlotEntry} (h : e.WF)
    {l : List (FecSetIndex × List Shred)} (hl : ∀ p ∈ l, p.1 < maxDataShredsPerSlot)
    (report : List (FecSetIndex × Nat × Nat)) :
    l.foldlM (reportIncomplete order e.stateTracker) report =
      .ok (report ++ (l.filter fun p => !e.view.recovered p.1).map fun p =>
        (p.1, (getDataShredInfo (order.iter p.2)).numExpectedDataShreds, p.2.length)) := by
  induction l generalizing report with
  | nil => simp
  | cons p l ih =>
      have hindex := index_recovered (fun f => e.fecSets[f]?) h (hl p List.mem_cons_self)
      have hrest := ih fun q hq => hl q (List.mem_cons_of_mem p hq)
      change index _ _ = .ok (e.view.recovered p.1) at hindex
      simp only [List.foldlM_cons, reportIncomplete, hindex, ok_bind]
      cases hrec : e.view.recovered p.1 with
      | true => simp [hrest, hrec]
      | false => simp [hrest, hrec]

/-- The loop over the sets of an entry computes the closed form. -/
theorem incompleteFecSets_eq {order : IterOrder} {e : SlotEntry} (h : e.WF)
    (hinv : e.view.Inv slot) : incompleteFecSets order e = .ok (e.report order) := by
  unfold incompleteFecSets
  rw [foldlM_reportIncomplete h]
  · rfl
  · intro p hp
    exact hinv.fecSet_lt p.1 p.2 (Std.ExtTreeMap.mem_toList_iff_getElem?_eq_some.mp hp)

/-- The report of an entry is the one of its view. -/
theorem SlotEntry.reports (order : IterOrder) (e : SlotEntry) :
    e.view.Reports (e.report order) := by
  have hget : ∀ p ∈ e.fecSets.toList, e.view.fecSets p.1 = some p.2 :=
    fun p hp => Std.ExtTreeMap.mem_toList_iff_getElem?_eq_some.mp hp
  unfold SlotEntry.report
  constructor
  · have hordered : e.fecSets.toList.Pairwise fun p q => p.1 < q.1 :=
      Std.ExtTreeMap.ordered_keys_toList.imp fun hpq => Nat.compare_eq_lt.mp hpq
    rw [List.map_map, List.pairwise_map]
    exact hordered.filter _
  · intro x hx
    rcases List.mem_map.mp hx with ⟨p, hp, rfl⟩
    have hp' := hget p (List.mem_filter.mp hp).1
    simp [SlotState.held, hp']
  · intro f
    simp only [List.map_map, List.mem_map, List.mem_filter, Function.comp_apply]
    constructor
    · rintro ⟨p, ⟨hp, hrec⟩, rfl⟩
      exact ⟨by simp [hget p hp], by simpa using hrec⟩
    · rintro ⟨hkey, hrec⟩
      rcases Option.isSome_iff_exists.mp hkey with ⟨shreds, hshreds⟩
      refine ⟨(f, shreds), ⟨?_, by simp [hrec]⟩, rfl⟩
      exact Std.ExtTreeMap.mem_toList_iff_getElem?_eq_some.mpr hshreds

/-! ## One pruning step -/

/-- The slot is one that a pruning step drops. -/
def SlotMap.Drops (m : SlotMap) (highestSlotSeen slot : Slot) : Prop :=
  maxProcessingAge < m.size ∧ slot < highestSlotSeen - slotLookback

/-- The reports of a pruning step, in closed form. -/
def SlotMap.missed (order : IterOrder) (m : SlotMap) (highestSlotSeen : Slot) :
    List (Slot × List (FecSetIndex × Nat × Nat)) :=
  if maxProcessingAge < m.size then
    ((m.toList.filter fun p => p.1 < highestSlotSeen - slotLookback).map fun p =>
      (p.1, p.2.report order)).filter fun p => p.2 ≠ []
  else []

/-- A pruning step does not panic; it drops the old slots and reports their missed sets. -/
theorem prune_eq {m : SlotMap} (h : m.Good) (order : IterOrder) (highestSlotSeen : Slot) :
    prune order m highestSlotSeen =
      .ok (m.retained highestSlotSeen, m.missed order highestSlotSeen) := by
  unfold prune SlotMap.retained SlotMap.missed
  by_cases hsize : maxProcessingAge < m.size
  · simp only [hsize, if_true]
    rw [mapM_eq_ok (g := fun p => (p.1, p.2.report order))]
    · rfl
    · intro p hp
      have hget : m[p.1]? = some p.2 :=
        Std.ExtTreeMap.mem_toList_iff_getElem?_eq_some.mp (List.mem_filter.mp hp).1
      have hentry := h p.1
      rw [SlotMap.entry_of_getElem? hget] at hentry
      simp [incompleteFecSets_eq hentry.1 hentry.2]
  · simp only [hsize, if_false]
    rfl

/-- What a pruning step reports: dropped slots that missed a set. -/
theorem SlotMap.mem_missed {m : SlotMap} {order : IterOrder} {highestSlotSeen : Slot}
    {p : Slot × List (FecSetIndex × Nat × Nat)} (h : p ∈ m.missed order highestSlotSeen) :
    m.Drops highestSlotSeen p.1 ∧ (m.view p.1).Reports p.2 ∧ p.2 ≠ [] := by
  unfold SlotMap.missed at h
  split at h
  · rename_i hsize
    rcases List.mem_filter.mp h with ⟨hmem, hne⟩
    rcases List.mem_map.mp hmem with ⟨q, hq, rfl⟩
    rcases List.mem_filter.mp hq with ⟨hq, hlt⟩
    have hget : m[q.1]? = some q.2 := Std.ExtTreeMap.mem_toList_iff_getElem?_eq_some.mp hq
    refine ⟨⟨hsize, by simpa using hlt⟩, ?_, by simpa using hne⟩
    rw [SlotMap.view, SlotMap.entry_of_getElem? hget]
    exact q.2.reports order
  · exact absurd h List.not_mem_nil

/-- A slot that is reported now holds something. -/
theorem SlotMap.view_ne_of_mem_missed {m : SlotMap} {order : IterOrder} {highestSlotSeen : Slot}
    {p : Slot × List (FecSetIndex × Nat × Nat)} (h : p ∈ m.missed order highestSlotSeen) :
    m.view p.1 ≠ SlotState.initial := by
  intro hinit
  rcases SlotMap.mem_missed h with ⟨_, hreports, hne⟩
  rcases List.exists_mem_of_ne_nil _ hne with ⟨x, hx⟩
  have hmiss := (hreports.mem_iff x.1).mp (List.mem_map_of_mem hx)
  rw [hinit] at hmiss
  exact SlotState.not_missed_initial _ hmiss

/-- Every dropped slot that missed a set is reported. -/
theorem SlotMap.exists_missed {m : SlotMap} (order : IterOrder) {highestSlotSeen : Slot}
    {f : FecSetIndex} (hdrop : m.Drops highestSlotSeen slot) (h : (m.view slot).Missed f) :
    ∃ p ∈ m.missed order highestSlotSeen, p.1 = slot := by
  have hmem : slot ∈ m := by
    by_contra hnot
    rw [SlotMap.view, SlotMap.entry_of_not_mem hnot, SlotEntry.view_default] at h
    exact SlotState.not_missed_initial f h
  rcases Option.isSome_iff_exists.mp (Std.ExtTreeMap.mem_iff_isSome_getElem?.mp hmem) with ⟨e, he⟩
  rw [SlotMap.view, SlotMap.entry_of_getElem? he, ← (e.reports order).mem_iff] at h
  refine ⟨(slot, e.report order), ?_, rfl⟩
  unfold SlotMap.missed
  rw [if_pos hdrop.1]
  refine List.mem_filter.mpr ⟨List.mem_map.mpr ⟨(slot, e), ?_, rfl⟩, ?_⟩
  · exact List.mem_filter.mpr
      ⟨Std.ExtTreeMap.mem_toList_iff_getElem?_eq_some.mpr he, by simpa using hdrop.2⟩
  · rw [decide_eq_true_eq]
    intro hnil
    change e.report order = [] at hnil
    rw [hnil] at h
    exact absurd h List.not_mem_nil

/-- A dropped slot is back at its start. -/
theorem SlotMap.view_of_drops {m : SlotMap} {highestSlotSeen : Slot}
    (h : m.Drops highestSlotSeen slot) :
    (m.retained highestSlotSeen).view slot = SlotState.initial := by
  rw [SlotMap.view_retained]
  exact if_pos h

/-- A slot that is not dropped stays as it is. -/
theorem SlotMap.view_of_not_drops {m : SlotMap} {highestSlotSeen : Slot}
    (h : ¬ m.Drops highestSlotSeen slot) :
    (m.retained highestSlotSeen).view slot = m.view slot := by
  rw [SlotMap.view_retained]
  exact if_neg h

theorem SlotMap.view_retained_initial {m : SlotMap} {highestSlotSeen : Slot}
    (h : m.view slot = SlotState.initial) :
    (m.retained highestSlotSeen).view slot = SlotState.initial := by
  by_cases hdrop : m.Drops highestSlotSeen slot
  · exact SlotMap.view_of_drops hdrop
  · rw [SlotMap.view_of_not_drops hdrop, h]

theorem SlotMap.nodup_missed (m : SlotMap) (order : IterOrder) (highestSlotSeen : Slot) :
    ((m.missed order highestSlotSeen).map Prod.fst).Nodup := by
  unfold SlotMap.missed
  split
  · have hkeys : m.toList.Pairwise fun p q => p.1 ≠ q.1 :=
      Std.ExtTreeMap.distinct_keys_toList.imp fun hpq heq => hpq (by simp [heq])
    rw [List.Nodup, List.pairwise_map]
    refine List.Pairwise.filter _ ?_
    rw [List.pairwise_map]
    exact hkeys.filter _
  · exact List.nodup_nil

/-! ## The reports of a run -/

/-- What a call leaves behind and reports, read off the call without pruning. -/
theorem missedFecSets_eq {call : Call} {state : ProxyState} {r r₀ : CallResult}
    (hr : reconstructShreds ledger call state = .ok r)
    (hr₀ : reconstructShredsNoRetain ledger call state = .ok r₀) (h : r₀.state.allShreds.Good) :
    r.state.allShreds = r₀.state.allShreds.retained r₀.state.highestSlotSeen ∧
      r.missedFecSets = r₀.state.allShreds.missed call.order r₀.state.highestSlotSeen := by
  unfold reconstructShreds at hr
  simp only [hr₀, ok_bind, prune_eq h, pure_eq_ok, Except.ok.injEq] at hr
  rw [← hr]
  exact ⟨rfl, rfl⟩

/-- Before it prunes, a call changes every slot as a one-slot call does. -/
theorem Sim.noRetain {state : ProxyState} {m : Machine} (h : Sim state m) (call : Call) :
    ∃ r, reconstructShredsNoRetain ledger call state = .ok r ∧ r.state.allShreds.Good ∧
      r.state.highestSlotSeen = (m.call ledger call).machine.highest ∧
      ∀ slot, r.state.allShreds.view slot =
        ((state.allShreds.view slot).process ledger call.order slot
          (m.offered ledger (call.shreds ledger) slot)).1 := by
  rcases @reconstructShredsNoRetain_refines ledger state h.good call with
    ⟨r, hr, hgood, hview, hmatch, _⟩
  have hsame := @Machine.Agree.process ledger call.order _ _ h.agree (call.shreds ledger)
  refine ⟨r, hr, hgood, hmatch.highest.trans hsame.1.highest, ?_⟩
  intro slot
  rw [← h.agree.offered_eq]
  exact (congrFun (congrArg Machine.slots hview) slot).trans (Machine.process_slot _ _ _)

/-- A slot below the threshold is not changed by a call. -/
theorem Machine.call_slot_of_dead {m : Machine} (h : slot < m.highest - slotLookback)
    (call : Call) : (m.call ledger call).machine.slots slot = m.slots slot := by
  rw [Machine.call, Machine.process_slot, Machine.offered_eq_nil_of_dead h, SlotState.process_nil]

namespace History

/-- Every report of the run, in order. -/
def missed (h : History) : List (Slot × List (FecSetIndex × Nat × Nat)) :=
  h.results.flatMap CallResult.missedFecSets

/-- The reports of a run are about slots that were dropped, and say what a machine that never
prunes holds for them; a dropped slot that missed a set was reported. -/
structure Reported (h : History) (m : Machine) : Prop where
  nodup : (h.missed.map Prod.fst).Nodup
  report : ∀ p ∈ h.missed, p.1 < m.highest - slotLookback ∧
    h.state.allShreds.view p.1 = SlotState.initial ∧ (m.slots p.1).Reports p.2 ∧ p.2 ≠ []
  slots : ∀ slot, h.state.allShreds.view slot = m.slots slot ∨
    slot < m.highest - slotLookback ∧ h.state.allShreds.view slot = SlotState.initial ∧
      ∀ f, (m.slots slot).Missed f → ∃ p ∈ h.missed, p.1 = slot

theorem reported_initial : Reported History.initial Machine.initial where
  nodup := List.nodup_nil
  report := fun _ hp => absurd hp List.not_mem_nil
  slots := fun slot =>
    Or.inl (congrFun (congrArg Machine.slots ProxyState.view_initial) slot)

variable {h : History} {m : Machine}

/-- Before it prunes, a call reports nothing, and slots that were dropped stay empty. -/
theorem Reported.noRetain (hrep : h.Reported m) {call : Call} {state : ProxyState}
    (hview : ∀ slot, state.allShreds.view slot =
      ((h.state.allShreds.view slot).process ledger call.order slot
        (m.offered ledger (call.shreds ledger) slot)).1) :
    Reported ⟨state, h.results⟩ (m.call ledger call).machine := by
  have hmono : m.highest - slotLookback ≤ (m.call ledger call).machine.highest - slotLookback :=
    Nat.sub_le_sub_right (Machine.highest_le_process m _) _
  have hdead : ∀ slot, slot < m.highest - slotLookback →
      h.state.allShreds.view slot = SlotState.initial →
      state.allShreds.view slot = SlotState.initial := by
    intro slot hlt hinit
    rw [hview, Machine.offered_eq_nil_of_dead hlt, SlotState.process_nil]
    exact hinit
  refine ⟨hrep.nodup, ?_, ?_⟩
  · intro p hp
    rcases hrep.report p hp with ⟨hlt, hinit, hreports, hne⟩
    refine ⟨hlt.trans_le hmono, hdead p.1 hlt hinit, ?_, hne⟩
    rw [Machine.call_slot_of_dead hlt]
    exact hreports
  · intro slot
    rcases hrep.slots slot with heq | ⟨hlt, hinit, hsaid⟩
    · left
      change state.allShreds.view slot = _
      rw [hview, heq]
      exact (Machine.process_slot m _ slot).symm
    · right
      refine ⟨hlt.trans_le hmono, hdead slot hlt hinit, ?_⟩
      rw [Machine.call_slot_of_dead hlt]
      exact hsaid

/-- The slots that are dropped now were not reported before. -/
theorem Reported.prune {state : ProxyState} {results : List CallResult}
    (hrep : Reported ⟨state, results⟩ m) (hhighest : state.highestSlotSeen = m.highest)
    {r : CallResult} {order : IterOrder}
    (hstate : r.state.allShreds = state.allShreds.retained state.highestSlotSeen)
    (hmissed : r.missedFecSets = state.allShreds.missed order state.highestSlotSeen) :
    Reported ⟨r.state, results ++ [r]⟩ m := by
  have hall : History.missed ⟨r.state, results ++ [r]⟩ =
      History.missed ⟨state, results⟩ ++
        state.allShreds.missed order state.highestSlotSeen := by
    simp [History.missed, hmissed]
  constructor
  · rw [hall, List.map_append]
    refine List.nodup_append.mpr ⟨hrep.nodup, SlotMap.nodup_missed _ _ _, ?_⟩
    rintro slot hold slot' hnow rfl
    rcases List.mem_map.mp hold with ⟨p, hp, rfl⟩
    rcases List.mem_map.mp hnow with ⟨q, hq, heq⟩
    -- a slot that was reported is empty, and an empty slot is not reported
    exact SlotMap.view_ne_of_mem_missed hq (heq ▸ (hrep.report p hp).2.1)
  · intro p hp
    rw [hall] at hp
    rw [hstate]
    rcases List.mem_append.mp hp with hp | hp
    · rcases hrep.report p hp with ⟨hlt, hinit, hreports, hne⟩
      exact ⟨hlt, SlotMap.view_retained_initial hinit, hreports, hne⟩
    · rcases SlotMap.mem_missed hp with ⟨hdrop, hreports, hne⟩
      refine ⟨hhighest ▸ hdrop.2, SlotMap.view_of_drops hdrop, ?_, hne⟩
      rcases hrep.slots p.1 with heq | ⟨_, hinit, _⟩
      · rw [← heq]
        exact hreports
      · exact absurd hinit (SlotMap.view_ne_of_mem_missed hp)
  · intro slot
    rw [hall, hstate]
    by_cases hdrop : state.allShreds.Drops state.highestSlotSeen slot
    · refine Or.inr ⟨hhighest ▸ hdrop.2, SlotMap.view_of_drops hdrop, ?_⟩
      intro f hmiss
      rcases hrep.slots slot with heq | ⟨_, _, hsaid⟩
      · rw [← heq] at hmiss
        rcases SlotMap.exists_missed order hdrop hmiss with ⟨p, hp, hslot⟩
        exact ⟨p, List.mem_append_right _ hp, hslot⟩
      · rcases hsaid f hmiss with ⟨p, hp, hslot⟩
        exact ⟨p, List.mem_append_left _ hp, hslot⟩
    · rw [SlotMap.view_of_not_drops hdrop]
      refine (hrep.slots slot).imp_right ?_
      rintro ⟨hlt, hinit, hsaid⟩
      refine ⟨hlt, hinit, ?_⟩
      intro f hmiss
      rcases hsaid f hmiss with ⟨p, hp, hslot⟩
      exact ⟨p, List.mem_append_left _ hp, hslot⟩

/-- A call adds to the reports what its pruning step drops. -/
theorem Reported.extend (hrep : h.Reported m) (hsim : Sim h.state m) {call : Call}
    {r : CallResult} (hr : reconstructShreds ledger call h.state = .ok r) :
    Reported ⟨r.state, h.results ++ [r]⟩ (m.call ledger call).machine := by
  rcases @Sim.noRetain ledger _ _ hsim call with ⟨r₀, hr₀, hgood, hhighest, hview⟩
  rcases missedFecSets_eq hr hr₀ hgood with ⟨hstate, hmissed⟩
  exact (hrep.noRetain hview).prune hhighest hstate hmissed

end History

/-- The reports of a run are those of a machine that never prunes. -/
theorem reported_of_runCalls {calls : List Call} {h : History}
    (hrun : runCalls ledger calls = .ok h) : h.Reported (Machine.runs ledger calls).machine := by
  induction calls using List.reverseRecOn generalizing h with
  | nil =>
      obtain rfl := Except.ok.inj hrun
      exact History.reported_initial
  | append_singleton calls call ih =>
      rcases runCalls_concat.mp hrun with ⟨h₁, r, hh₁, hr, rfl⟩
      rw [Machine.runs_concat]
      exact (ih hh₁).extend (sim_of_runCalls hh₁) hr

/-! ## Sets that hold a shred -/

namespace SlotState

variable {order : IterOrder} {σ σ' : SlotState}

/-- Every set that was not completed holds a shred. -/
def Filled (σ : SlotState) : Prop := ∀ f, σ.Missed f → σ.held f ≠ []

theorem filled_initial : Filled SlotState.initial :=
  fun f h => absurd h (not_missed_initial f)

/-- The set that takes a shred holds one. -/
theorem Filled.ingest (h : σ.Filled) {s : Shred} (hin : σ.ingest ledger s = some σ') :
    σ'.Filled := by
  intro f hmiss
  rw [held_ingest hin]
  split
  · intro hnil
    have hpos : s.position ∈ (insertComparable ledger (σ.held f) s).map Shred.position :=
      position_mem_insertComparable.mpr (Or.inr rfl)
    rw [hnil] at hpos
    exact absurd hpos List.not_mem_nil
  · rename_i hf
    rcases ingest_eq_some_iff.mp hin with ⟨_, _, _, rfl⟩
    refine h f ⟨?_, hmiss.2⟩
    simpa [hf] using hmiss.1

/-- Taking a shred makes an entry for its set and removes none. -/
theorem isSome_fecSets_ingest {s : Shred} (hin : σ.ingest ledger s = some σ') {f : FecSetIndex}
    (h : (σ.fecSets f).isSome ∨ f = s.fecSetIndex) : (σ'.fecSets f).isSome := by
  rcases ingest_eq_some_iff.mp hin with ⟨_, _, _, rfl⟩
  by_cases hf : f = s.fecSetIndex
  · simp [hf]
  · simpa [hf] using h

/-- The sets of the work list have an entry. -/
theorem isSome_fecSets_feed (σ : SlotState) (shreds : List Shred) {f : FecSetIndex}
    (h : (σ.fecSets f).isSome ∨ f ∈ (σ.feed ledger shreds).2) :
    ((σ.feed ledger shreds).1.fecSets f).isSome := by
  have hloop : ∀ (l : List Shred) (acc : SlotState × List FecSetIndex),
      (∀ f ∈ acc.2, (acc.1.fecSets f).isSome) →
      ∀ f, (acc.1.fecSets f).isSome ∨ f ∈ (l.foldl (offer ledger) acc).2 →
        ((l.foldl (offer ledger) acc).1.fecSets f).isSome := by
    intro l
    induction l with
    | nil =>
        intro acc hacc f hf
        exact hf.elim id (hacc f)
    | cons s l ih =>
        intro acc hacc f hf
        rw [List.foldl_cons] at hf ⊢
        cases hin : acc.1.ingest ledger s with
        | none =>
            have hsame : offer ledger acc s = acc := by simp [offer, hin]
            rw [hsame] at hf ⊢
            exact ih acc hacc f hf
        | some σ' =>
            have hnext : offer ledger acc s = (σ', acc.2 ++ [s.fecSetIndex]) := by
              simp [offer, hin]
            rw [hnext] at hf ⊢
            refine ih _ ?_ f (hf.imp_left fun hkey => isSome_fecSets_ingest hin (Or.inl hkey))
            intro g hg
            rcases List.mem_append.mp hg with hg | hg
            · exact isSome_fecSets_ingest hin (Or.inl (hacc g hg))
            · exact isSome_fecSets_ingest hin (Or.inr (List.mem_singleton.mp hg))
  exact hloop shreds (σ, []) (by simp) f h

/-- A recovery attempt removes no entry. -/
theorem isSome_fecSets_recover {f g : FecSetIndex} (h : (σ.fecSets g).isSome) :
    ((σ.recover ledger order f).1.fecSets g).isSome := by
  rw [(recover_spec ledger order σ f).fecSets_eq]
  by_cases hg : g = f
  · simp [hg]
  · simpa [hg] using h

/-- A recovery attempt on a set with an entry keeps what is held, or completes the set. -/
theorem Filled.recover (h : σ.Filled) {f : FecSetIndex} (hkey : (σ.fecSets f).isSome) :
    (σ.recover ledger order f).1.Filled := by
  intro g hmiss
  have hspec := recover_spec ledger order σ f
  rw [held_recover]
  by_cases hpos : g = f ∧ 0 < (σ.recover ledger order f).2
  · have hflag := hmiss.2
    rw [hspec.recovered_eq, if_pos hpos.2, hpos.1] at hflag
    simp at hflag
  · rw [if_neg hpos]
    refine h g ⟨?_, ?_⟩
    · by_cases hg : g = f
      · rw [hg]
        exact hkey
      · simpa [hspec.fecSets_eq, hg] using hmiss.1
    · have hflag := hmiss.2
      rw [hspec.recovered_eq] at hflag
      split at hflag
      · rename_i hcount
        have hg : g ≠ f := fun heq => hpos ⟨heq, hcount⟩
        simpa [hg] using hflag
      · exact hflag

/-- A deshred attempt changes no bucket. -/
theorem deshred_fecSets (ledger : Ledger) (slot : Slot) (σ : SlotState) (f : FecSetIndex) :
    (σ.deshred ledger slot f).1.fecSets = σ.fecSets := by
  rcases deshred_cases ledger slot σ f with heq | ⟨a, e, u, _, _, _, _, heq⟩
  · rw [heq]
  · rw [heq]
    rfl

/-- A deshred attempt keeps the sets filled. -/
theorem Filled.deshred (h : σ.Filled) (f : FecSetIndex) :
    (σ.deshred ledger slot f).1.Filled := by
  intro g hmiss
  rw [held_deshred]
  refine h g ⟨by rw [← deshred_fecSets ledger slot σ f]; exact hmiss.1, ?_⟩
  have hflag := hmiss.2
  rcases deshred_cases ledger slot σ f with heq | ⟨a, e, u, _, _, _, _, heq⟩
  · rwa [heq] at hflag
  · rw [heq] at hflag
    by_contra htrue
    have hmark : (σ.mark a e).recovered g = true :=
      mark_recovered_iff.mpr (Or.inl (by simpa using htrue))
    rw [hmark] at hflag
    contradiction

/-- A call fills the sets it takes shreds for and keeps the others. -/
theorem Filled.process (h : σ.Filled) (shreds : List Shred) :
    (σ.process ledger order slot shreds).1.Filled ∧
      ∀ f, (σ.fecSets f).isSome ∨ f ∈ σ.touched ledger shreds →
        ((σ.process ledger order slot shreds).1.fecSets f).isSome := by
  have hfeed : (σ.feed ledger shreds).1.Filled :=
    (feed_invariant (P := fun τ _ => τ.Filled) [] h fun _ _ _ _ hτ hin => hτ.ingest hin).1
  have hkeys : ∀ f, (σ.fecSets f).isSome ∨ f ∈ σ.touched ledger shreds →
      ((σ.feed ledger shreds).1.fecSets f).isSome := by
    intro f hf
    exact isSome_fecSets_feed σ shreds (hf.imp_right mem_sortDedup.mp)
  have hrec := (run_invariant (SlotState.recover ledger order) (l := σ.touched ledger shreds)
    (P := fun τ => τ.Filled ∧ ∀ f, (σ.fecSets f).isSome ∨ f ∈ σ.touched ledger shreds →
      (τ.fecSets f).isSome) (Q := fun _ _ => True) ?_ ⟨hfeed, hkeys⟩).1
  · exact run_deshred_invariant (P := fun τ _ => τ.Filled ∧
      ∀ f, (σ.fecSets f).isSome ∨ f ∈ σ.touched ledger shreds → (τ.fecSets f).isSome) [] hrec
      fun τ _ f _ hτ => ⟨hτ.1.deshred f, by rw [deshred_fecSets]; exact hτ.2⟩
  · intro τ f hf hτ
    refine ⟨⟨hτ.1.recover (hτ.2 f (Or.inr hf)), ?_⟩, trivial⟩
    exact fun g hg => isSome_fecSets_recover (hτ.2 g hg)

end SlotState

/-- Along every run, a set that took a shred has an entry, and holds a shred unless it was
completed. -/
theorem Machine.filled_runs (calls : List Call) (slot : Slot) :
    ((runs ledger calls).machine.slots slot).Filled ∧
      ∀ o ∈ (runs ledger calls).outcomes, ∀ f, (slot, f) ∈ o.work →
        (((runs ledger calls).machine.slots slot).fecSets f).isSome := by
  induction calls using List.reverseRecOn with
  | nil => exact ⟨SlotState.filled_initial, fun o ho => absurd ho List.not_mem_nil⟩
  | append_singleton calls c ih =>
      have hstep := @SlotState.Filled.process ledger slot c.order _ ih.1
        ((runs ledger calls).machine.offered ledger (c.shreds ledger) slot)
      have hslot : (runs ledger (calls ++ [c])).machine.slots slot = _ :=
        congrArg Prod.fst (@runs_concat_slot ledger calls c slot)
      rw [hslot]
      refine ⟨hstep.1, ?_⟩
      intro o ho f hf
      rw [runs_concat] at ho
      apply hstep.2
      rcases List.mem_append.mp ho with ho | ho
      · exact Or.inl (ih.2 o ho f hf)
      · rw [List.mem_singleton.mp ho] at hf
        rw [← touched_slot]
        exact Or.inr (mem_atKey.mpr hf)

/-! ## What completes a set -/

/-- A recovery attempt of the run on the set, for which only received shreds were held, called
recovery and got a shred. -/
def Recovered (ledger : Ledger) (packets : List Packet) (calls : List Call) (slot : Slot)
    (f : FecSetIndex) : Prop :=
  ∃ order m items s, RecoverTurn ledger calls order m (slot, f) ∧
    (∀ t ∈ (m.view slot).held f, Carried ledger packets t ∧ t.slot = slot ∧ t.fecSetIndex = f) ∧
    (m.view slot).callsRecover order f = true ∧
    (m.view slot).recoverAnswer ledger order f = some items ∧ some s ∈ items

theorem Recovered.of_prefix {packets : List Packet} {before after : List Call} {f : FecSetIndex}
    (h : Recovered ledger packets before slot f) :
    Recovered ledger packets (before ++ after) slot f := by
  rcases h with ⟨order, m, items, s, hturn, hrest⟩
  exact ⟨order, m, items, s, hturn.of_prefix, hrest⟩

/-- The emitted items of a slot have their shreds in the slot, in completed sets; and a set is
completed only by what `R` says, or by an item with one of its shreds. -/
structure Traced (ledger : Ledger) (packets : List Packet) (R : FecSetIndex → Prop) (slot : Slot)
    (σ : SlotState) (out : List Deshredded) : Prop where
  provenance : Provenance ledger packets slot σ out
  stored : ∀ d ∈ out, ∀ i ∈ d.range, ∃ s, σ.dataShreds i = some s ∧
    σ.recovered s.fecSetIndex = true
  sources : ∀ d ∈ out, d.Sources ledger packets
    (σ.shredsIn d.startDataCompleteIdx d.endDataCompleteIdx)
  completed : ∀ f, σ.recovered f = true → R f ∨
    ∃ d ∈ out, ∃ s ∈ σ.shredsIn d.startDataCompleteIdx d.endDataCompleteIdx, s.fecSetIndex = f

namespace Traced

variable {packets : List Packet} {R : FecSetIndex → Prop} {order : IterOrder} {σ σ' : SlotState}
  {out : List Deshredded}

theorem initial (ledger : Ledger) (packets : List Packet) (R : FecSetIndex → Prop) (slot : Slot) :
    Traced ledger packets R slot SlotState.initial [] where
  provenance := Provenance.initial ledger packets slot
  stored := fun _ h => absurd h List.not_mem_nil
  sources := fun _ h => absurd h List.not_mem_nil
  completed := fun _ h => absurd h (by simp [SlotState.initial])

theorem imp (h : Traced ledger packets R slot σ out) {R' : FecSetIndex → Prop}
    (hR : ∀ f, R f → R' f) : Traced ledger packets R' slot σ out where
  provenance := h.provenance
  stored := h.stored
  sources := h.sources
  completed := fun f hf => (h.completed f hf).imp_left (hR f)

/-- The shreds of an item stay where they are while the slot only gains shreds. -/
theorem shredsIn_eq (h : Traced ledger packets R slot σ out)
    (hmono : ∀ i s, σ.dataShreds i = some s → σ'.dataShreds i = some s) {d : Deshredded}
    (hd : d ∈ out) : σ'.shredsIn d.startDataCompleteIdx d.endDataCompleteIdx =
      σ.shredsIn d.startDataCompleteIdx d.endDataCompleteIdx := by
  unfold SlotState.shredsIn
  apply List.filterMap_congr
  intro i hi
  rw [List.mem_range'_1] at hi
  rcases h.stored d hd i ⟨hi.1, by omega⟩ with ⟨s, hs, _⟩
  rw [hs, hmono i s hs]

/-- A step that only gains shreds, and completes only what `R` says. -/
theorem grow (h : Traced ledger packets R slot σ out)
    (hprov : Provenance ledger packets slot σ' out)
    (hmono : ∀ i s, σ.dataShreds i = some s → σ'.dataShreds i = some s)
    (hkeep : ∀ f, σ.recovered f = true → σ'.recovered f = true)
    (hnew : ∀ f, σ'.recovered f = true → σ.recovered f = true ∨ R f) :
    Traced ledger packets R slot σ' out := by
  refine ⟨hprov, ?_, ?_, ?_⟩
  · intro d hd i hi
    rcases h.stored d hd i hi with ⟨s, hs, hflag⟩
    exact ⟨s, hmono i s hs, hkeep _ hflag⟩
  · intro d hd
    rw [h.shredsIn_eq hmono hd]
    exact h.sources d hd
  · intro f hf
    rcases hnew f hf with hold | hrec
    · refine (h.completed f hold).imp_right ?_
      rintro ⟨d, hd, s, hs, hsf⟩
      rw [← h.shredsIn_eq hmono hd] at hs
      exact ⟨d, hd, s, hs, hsf⟩
    · exact Or.inl hrec

/-- Taking a received shred keeps the account, as it completes nothing. -/
theorem ingest (h : Traced ledger packets R slot σ out) {s : Shred}
    (hs : Carried ledger packets s) (hslot : s.slot = slot) (hin : σ.ingest ledger s = some σ') :
    Traced ledger packets R slot σ' out := by
  have hsame : σ'.recovered = σ.recovered := by
    rcases SlotState.ingest_eq_some_iff.mp hin with ⟨_, _, _, rfl⟩
    rfl
  apply h.grow (h.provenance.ingest hs hslot hin)
  · exact fun i t ht => SlotState.stored_mono_ingest hin ht
  · intro f hf
    rwa [hsame]
  · intro f hf
    rw [hsame] at hf
    exact Or.inl hf

/-- Recovery completes a set only when it counts a shred. -/
theorem recover (h : Traced ledger packets R slot σ out) {f : FecSetIndex}
    (hf : f < maxDataShredsPerSlot) (hR : 0 < (σ.recover ledger order f).2 → R f) :
    Traced ledger packets R slot (σ.recover ledger order f).1 out := by
  have hspec := SlotState.recover_spec ledger order σ f
  apply h.grow (h.provenance.recover order hf) hspec.mono
  · intro g hg
    rw [hspec.recovered_eq]
    split
    · by_cases hgf : g = f <;> simp [hgf, hg]
    · exact hg
  · intro g hg
    rw [hspec.recovered_eq] at hg
    split at hg
    · rename_i hpos
      by_cases hgf : g = f
      · exact Or.inr (hgf ▸ hR hpos)
      · exact Or.inl (by simpa [hgf] using hg)
    · exact Or.inl hg

/-- An emitted item completes the sets of its shreds. -/
theorem deshred (h : Traced ledger packets R slot σ out) (f : FecSetIndex) :
    Traced ledger packets R slot (σ.deshred ledger slot f).1
      (out ++ (σ.deshred ledger slot f).2.toList) := by
  have hprov := h.provenance.deshred f
  rcases SlotState.deshred_cases ledger slot σ f with
    heq | ⟨a, e, u, entries, payload, hseg, hdecode, heq⟩
  · rw [heq]
    simpa using h
  · rw [heq] at hprov ⊢
    have hsplit : ∀ d ∈ out ++ (some (⟨slot, a, e, u, entries, payload⟩ : Deshredded)).toList,
        d ∈ out ∨ d = ⟨slot, a, e, u, entries, payload⟩ := by
      intro d hd
      simpa using hd
    refine ⟨hprov, ?_, ?_, ?_⟩
    · intro d hd i hi
      rcases hsplit d hd with hd | rfl
      · rcases h.stored d hd i hi with ⟨s, hs, hflag⟩
        exact ⟨s, hs, SlotState.mark_recovered_iff.mpr (Or.inl hflag)⟩
      · rcases SlotState.exists_of_isSegment hseg hi.1 hi.2 with ⟨s, hs⟩
        exact ⟨s, hs, SlotState.mark_recovered_iff.mpr (Or.inr ⟨i, s, hi.1, hi.2, hs, rfl⟩)⟩
    · intro d hd
      rcases hsplit d hd with hd | rfl
      · exact h.sources d hd
      · exact h.provenance.sources hseg hdecode
    · intro g hg
      rcases SlotState.mark_recovered_iff.mp hg with hold | ⟨j, s, h₁, h₂, hs, hsg⟩
      · refine (h.completed g hold).imp_right ?_
        rintro ⟨d, hd, hrest⟩
        exact ⟨d, List.mem_append_left _ hd, hrest⟩
      · refine Or.inr ⟨⟨slot, a, e, u, entries, payload⟩, by simp, s, ?_, hsg⟩
        exact SlotState.mem_shredsIn.mpr ⟨j, h₁, h₂, hs⟩

/-- One more call of a run: a set that recovery completes in it was completed by one of the
attempts that the call makes. -/
theorem call {before : List Call} {c : Call} (hpackets : ∀ p ∈ c.packets, p ∈ packets)
    (h : Traced ledger packets (Recovered ledger packets before slot) slot
      ((Machine.runs ledger before).machine.slots slot) out) :
    let σ := (Machine.runs ledger before).machine.slots slot
    let shreds := (Machine.runs ledger before).machine.offered ledger (c.shreds ledger) slot
    Traced ledger packets (Recovered ledger packets (before ++ [c]) slot) slot
      (σ.process ledger c.order slot shreds).1
      (out ++ (σ.process ledger c.order slot shreds).2) := by
  intro σ shreds
  have hsource : ∀ s ∈ shreds, s ∈ c.shreds ledger ∧ s.slot = slot := by
    intro s hs
    have hmem := (Machine.offered_sublist _ _ _).subset hs
    simpa using List.mem_filter.mp hmem
  have hfeed : Traced ledger packets (Recovered ledger packets (before ++ [c]) slot) slot
      (σ.feed ledger shreds).1 out ∧ ∀ f ∈ (σ.feed ledger shreds).2, ∃ s ∈ shreds,
        s.fecSetIndex = f := by
    refine SlotState.feed_invariant
      (P := Traced ledger packets (Recovered ledger packets (before ++ [c]) slot) slot) out
      (h.imp fun f => Recovered.of_prefix) ?_
    intro σ s σ' hs hσ hin
    rcases List.mem_filterMap.mp (hsource s hs).1 with ⟨p, hp, hshred⟩
    exact hσ.ingest ⟨p, hpackets p hp, hshred⟩ (hsource s hs).2 hin
  refine SlotState.run_deshred_invariant out ?_ fun τ out f _ hτ => hτ.deshred f
  refine run_prefix_invariant (SlotState.recover ledger c.order)
    (P := fun τ => Traced ledger packets (Recovered ledger packets (before ++ [c]) slot) slot τ out)
    hfeed.1 ?_
  intro pre f post htouched hτ
  have hlt : f < maxDataShredsPerSlot := by
    have hmem : f ∈ σ.touched ledger shreds := by simp [htouched]
    rcases hfeed.2 f (mem_sortDedup.mp hmem) with ⟨s, hs, rfl⟩
    exact (Call.admitted_of_mem (hsource s hs).1).fecSetIndex_lt
  refine hτ.recover hlt ?_
  intro hpos
  rcases exists_recoverTurn [] rfl htouched with ⟨m, hturn, hview⟩
  rcases (SlotState.recover_spec ledger c.order _ f).counted hpos with
    ⟨items, hcalls, hanswer, s, hs, _⟩
  rw [← hview] at hcalls hanswer
  refine ⟨c.order, m, items, s, hturn, ?_, hcalls, hanswer, hs⟩
  rw [hview]
  exact hτ.provenance.held f

/-- Every run keeps the account, with its own recovery attempts. -/
theorem runs {calls : List Call} (h : ∀ c ∈ calls, ∀ p ∈ c.packets, p ∈ packets) (slot : Slot) :
    Traced ledger packets (Recovered ledger packets calls slot) slot
      ((Machine.runs ledger calls).machine.slots slot)
      ((Machine.runs ledger calls).emittedFor slot) := by
  induction calls using List.reverseRecOn with
  | nil => exact Traced.initial ledger packets _ slot
  | append_singleton calls c ih =>
      have hslot := @Machine.runs_concat_slot ledger calls c slot
      rw [Prod.mk.injEq] at hslot
      rw [hslot.1, hslot.2]
      exact (ih fun c' hc' => h c' (List.mem_append_left _ hc')).call (h c (by simp))

/-- The items have no shred of a set that was not completed. -/
theorem avoids (h : Traced ledger packets R slot σ out) {f : FecSetIndex} (hmiss : σ.Missed f)
    {d : Deshredded} (hd : d ∈ out) :
    ∃ shreds, d.Sources ledger packets shreds ∧ ∀ s ∈ shreds, s.fecSetIndex ≠ f := by
  refine ⟨_, h.sources d hd, ?_⟩
  rintro s hs heq
  rcases SlotState.mem_shredsIn.mp hs with ⟨i, h₁, h₂, hi⟩
  rcases h.stored d hd i ⟨h₁, h₂⟩ with ⟨t, ht, hflag⟩
  rw [hi, Option.some.injEq] at ht
  rw [← ht, heq, hmiss.2] at hflag
  contradiction

end Traced

/-- The account of one slot, for what a run of the code pushed. -/
theorem traced_of_runCalls {calls : List Call} {h : History} (hrun : runCalls ledger calls = .ok h)
    (slot : Slot) :
    Traced ledger (calls.flatMap Call.packets)
      (Recovered ledger (calls.flatMap Call.packets) calls slot) slot
      ((Machine.runs ledger calls).machine.slots slot)
      (h.pushed.filter fun d => d.slot = slot) := by
  rw [pushed_filter_eq hrun]
  exact Traced.runs (fun c hc p hp => List.mem_flatMap.mpr ⟨c, hc, hp⟩) slot

/-! ## The account of a run -/

/-- A recovery attempt of the run got a shred of the set out of received ones, or an item pushed for
the slot was decoded from a shred of the set. -/
def Completed (ledger : Ledger) (calls : List Call) (pushed : List Deshredded) (slot : Slot)
    (f : FecSetIndex) : Prop :=
  Recovered ledger (calls.flatMap Call.packets) calls slot f ∨ ∃ d ∈ pushed, d.slot = slot ∧
    ∃ shreds, d.Sources ledger (calls.flatMap Call.packets) shreds ∧
      ∃ s ∈ shreds, s.fecSetIndex = f

/-- A set whose flag is set was completed. -/
theorem completed_of_recovered {calls : List Call} {h : History}
    (hrun : runCalls ledger calls = .ok h) {slot : Slot} {f : FecSetIndex}
    (hflag : ((Machine.runs ledger calls).machine.slots slot).recovered f = true) :
    Completed ledger calls h.pushed slot f := by
  have htraced := traced_of_runCalls hrun slot
  refine (htraced.completed f hflag).imp_right ?_
  rintro ⟨d, hd, s, hs, hsf⟩
  have hmem := List.mem_filter.mp hd
  exact ⟨d, hmem.1, by simpa using hmem.2, _, htraced.sources d hd, s, hs, hsf⟩

/-- A set that a run took a shred for is held, was reported, or was completed. -/
theorem held_reported_or_completed {calls : List Call} {h : History}
    (hrun : runCalls ledger calls = .ok h) {slot : Slot} {f : FecSetIndex}
    (hkey : (((Machine.runs ledger calls).machine.slots slot).fecSets f).isSome) :
    f ∈ (h.state.allShreds.entry slot).fecSets ∨
      (∃ p ∈ h.missed, p.1 = slot ∧ f ∈ p.2.map Prod.fst) ∨
      Completed ledger calls h.pushed slot f := by
  have hrep := reported_of_runCalls hrun
  rcases hrep.slots slot with heq | ⟨_, _, hsaid⟩
  · left
    rw [← heq] at hkey
    exact Std.ExtTreeMap.mem_iff_isSome_getElem?.mpr hkey
  · right
    cases hflag : ((Machine.runs ledger calls).machine.slots slot).recovered f with
    | false =>
        left
        rcases hsaid f ⟨hkey, hflag⟩ with ⟨p, hp, hslot⟩
        refine ⟨p, hp, hslot, ?_⟩
        rw [((hrep.report p hp).2.2.1).mem_iff, hslot]
        exact ⟨hkey, hflag⟩
    | true => exact Or.inr (completed_of_recovered hrun hflag)

/-- Along every run, a slot is reported at most once, when it is too old to take another shred.
Each reported set holds a shred of the run, and nothing was ever pushed from any of its shreds.
Every set that took a shred is still held, was reported, or was completed. -/
theorem missed_sets_accounted (ledger : Ledger) (calls : List Call) :
    ∃ h, runCalls ledger calls = .ok h ∧ (h.missed.map Prod.fst).Nodup ∧
      (∀ p ∈ h.missed, p.1 < h.state.highestSlotSeen - slotLookback ∧ p.2 ≠ [] ∧
        (p.2.map Prod.fst).Pairwise (· < ·) ∧ ∀ x ∈ p.2, 0 < x.2.2 ∧
          (∃ s, Carried ledger (calls.flatMap Call.packets) s ∧ s.slot = p.1 ∧
            s.fecSetIndex = x.1) ∧
          ∀ d ∈ h.pushed, d.slot = p.1 →
            ∃ shreds, d.Sources ledger (calls.flatMap Call.packets) shreds ∧
              ∀ s ∈ shreds, s.fecSetIndex ≠ x.1) ∧
      ∀ r ∈ h.results, ∀ w ∈ r.slotFecIndexesToIterate,
        w.2 ∈ (h.state.allShreds.entry w.1).fecSets ∨
          (∃ p ∈ h.missed, p.1 = w.1 ∧ w.2 ∈ p.2.map Prod.fst) ∨
          Completed ledger calls h.pushed w.1 w.2 := by
  rcases runCalls_sim ledger calls with ⟨h, hrun, hsim, hall⟩
  have hrep := reported_of_runCalls hrun
  refine ⟨h, hrun, hrep.nodup, ?_, ?_⟩
  · intro p hp
    rcases hrep.report p hp with ⟨hlt, _, hreports, hne⟩
    refine ⟨hsim.highest ▸ hlt, hne, hreports.ascending, ?_⟩
    intro x hx
    have hmiss := (hreports.mem_iff x.1).mp (List.mem_map_of_mem hx)
    have hheld := (@Machine.filled_runs ledger calls p.1).1 x.1 hmiss
    have htraced := traced_of_runCalls hrun p.1
    refine ⟨?_, ?_, ?_⟩
    · rw [hreports.held_eq x hx]
      exact List.length_pos_of_ne_nil hheld
    · rcases List.exists_mem_of_ne_nil _ hheld with ⟨s, hs⟩
      exact ⟨s, htraced.provenance.held x.1 s hs⟩
    · intro d hd hslot
      exact htraced.avoids hmiss (List.mem_filter.mpr ⟨hd, by simpa using hslot⟩)
  · intro r hr w hw
    rcases exists_matching hall hr with ⟨o, ho, hmatch⟩
    rw [hmatch.work] at hw
    exact held_reported_or_completed hrun ((@Machine.filled_runs ledger calls w.1).2 o ho w.2 hw)

end ShredstreamProxy
