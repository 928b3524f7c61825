import ShredstreamProxy.Properties.Emission
import ShredstreamProxy.Properties.OrderIndependence

/-!
# Where pushed entries come from

A call pushes entries decoded from the data shreds of a slot.  Those were carried by packets,
of this call or an earlier one, or they were answered by the ledger's recovery.  This module
follows a pushed item back to packets of the run: nothing is decoded from shreds of another
slot, from a position twice, or from shreds that recovery made up of anything but received
shreds of one erasure set.

Main results:

- Theorem {lit}`Provenance.recover`: what recovery stores was recovered from received shreds.
- Theorem {lit}`Provenance.deshred`: what a deshred attempt emits has its shreds.
- Theorem {lit}`disjoint_of_pushed`: no position of a slot is pushed twice.
- Theorem {lit}`pushed_from_packets`: every pushed item has its shreds, along every run.
-/

namespace ShredstreamProxy

open Exec Segment

variable {ledger : Ledger} {slot : Slot}

/-- The shred belongs to the slot, and one of the packets carries it or recovery answered it for
shreds of one erasure set that are all carried by the packets. -/
def Sourced (ledger : Ledger) (packets : List Packet) (slot : Slot) (s : Shred) : Prop :=
  s.slot = slot ∧
    (Carried ledger packets s ∨ ∃ shreds items,
      (∀ t ∈ shreds, Carried ledger packets t ∧ t.slot = slot ∧ t.fecSetIndex = s.fecSetIndex) ∧
        ledger.recover shreds = some items ∧ some s ∈ items)

/-- The item was decoded from these shreds of the packets: one data shred for every index of its
range, of which exactly the last one completes a block of data. -/
structure Deshredded.Sources (ledger : Ledger) (packets : List Packet) (d : Deshredded)
    (shreds : List Shred) : Prop where
  index_eq : shreds.map Shred.index =
    List.range' d.startDataCompleteIdx (d.endDataCompleteIdx + 1 - d.startDataCompleteIdx)
  shredType_eq : ∀ s ∈ shreds, s.shredType = .data
  completes_iff : ∀ s ∈ shreds, s.completes = true ↔ s.index = d.endDataCompleteIdx
  sourced : ∀ s ∈ shreds, Sourced ledger packets d.slot s
  deshred_eq : ledger.deshred (shreds.map Shred.payload) = some d.payload
  deserialize_eq : ledger.deserialize d.payload = some d.entries

/-! ## One slot -/

/-- The shreds of a slot and the items emitted for it go back to the packets. -/
structure Provenance (ledger : Ledger) (packets : List Packet) (slot : Slot) (σ : SlotState)
    (out : List Deshredded) : Prop where
  inv : σ.Inv slot
  held : σ.HeldIn (Carried ledger packets) slot
  stored : ∀ i s, σ.dataShreds i = some s → Sourced ledger packets slot s
  emitted : ∀ d ∈ out, ∃ shreds, d.Sources ledger packets shreds

namespace Provenance

variable {packets : List Packet} {σ σ' : SlotState} {out : List Deshredded}

theorem initial (ledger : Ledger) (packets : List Packet) (slot : Slot) :
    Provenance ledger packets slot SlotState.initial [] where
  inv := SlotState.inv_initial slot
  held := SlotState.heldIn_initial _ slot
  stored := fun _ _ h => absurd h (by simp [SlotState.initial])
  emitted := fun _ h => absurd h List.not_mem_nil

/-- A shred that is taken was carried by a packet. -/
theorem ingest (h : Provenance ledger packets slot σ out) {s : Shred}
    (hs : Carried ledger packets s) (hslot : s.slot = slot)
    (hin : σ.ingest ledger s = some σ') : Provenance ledger packets slot σ' out := by
  have hadm : s.Admitted := by
    rcases hs with ⟨p, _, hp⟩
    exact packetShred_admitted hp
  refine ⟨h.inv.ingest hadm hslot hin, h.held.ingest hs hslot hin, ?_, h.emitted⟩
  intro i t ht
  rcases SlotState.stored_of_ingest hin ht with ht | ⟨rfl, _⟩
  · exact h.stored i t ht
  · exact ⟨hslot, Or.inl hs⟩

/-- What recovery stores was recovered from the shreds held for one erasure set. -/
theorem recover (h : Provenance ledger packets slot σ out) (order : IterOrder) {f : FecSetIndex}
    (hf : f < maxDataShredsPerSlot) :
    Provenance ledger packets slot (σ.recover ledger order f).1 out := by
  refine ⟨h.inv.recover hf, h.held.recover order f, ?_, h.emitted⟩
  intro i s hs
  rcases (SlotState.recover_spec ledger order σ f).source i s hs with
    hs | ⟨items, hcalls, hanswer, hmem, _⟩
  · exact h.stored i s hs
  · have hadm := h.inv.answer_admitted hcalls hanswer hmem
    refine ⟨hadm.2.1, Or.inr ⟨_, items, ?_, hanswer, hmem⟩⟩
    intro t ht
    have hheld := h.held f t (SlotState.mem_sortForRecovery.mp ht)
    exact ⟨hheld.1, hheld.2.1, hheld.2.2.trans hadm.2.2.symm⟩

/-- The shreds of a segment, with the packets they come from. -/
theorem sources (h : Provenance ledger packets slot σ out) {f a e : Nat} {u : Bool}
    {entries : List Entry} {payload : Bytes}
    (hseg : IsSegment σ.line maxDataShredsPerSlot f a e u)
    (hdecode : σ.decode ledger a e = some (payload, entries)) :
    Deshredded.Sources ledger packets ⟨slot, a, e, u, entries, payload⟩ (σ.shredsIn a e) := by
  have hstored : ∀ s ∈ σ.shredsIn a e, ∃ j, a ≤ j ∧ j ≤ e ∧ σ.dataShreds j = some s ∧
      s.index = j := by
    intro s hs
    rcases SlotState.mem_shredsIn.mp hs with ⟨j, h₁, h₂, hj⟩
    exact ⟨j, h₁, h₂, hj, (h.inv.stored j s hj).2.2.1⟩
  constructor
  · have hall : List.Forall₂ (fun j s => j = s.index) (List.range' a (e + 1 - a))
        (σ.shredsIn a e) := by
      apply SlotState.forall₂_shredsIn
      intro j h₁ h₂
      rcases SlotState.exists_of_isSegment hseg h₁ h₂ with ⟨s, hs⟩
      exact ⟨s, hs, (h.inv.stored j s hs).2.2.1.symm⟩
    rw [← List.forall₂_map_right_iff, List.forall₂_eq_eq_eq] at hall
    exact hall.symm
  · intro s hs
    rcases hstored s hs with ⟨j, _, _, hj, _⟩
    exact (h.inv.stored j s hj).1
  · intro s hs
    rcases hstored s hs with ⟨j, h₁, h₂, hj, hindex⟩
    rw [hindex]
    constructor
    · intro hcomplete
      by_contra hne
      have hlt : j < e := lt_of_le_of_ne h₂ hne
      rcases SlotState.line_inner.mp (hseg.inner j h₁ hlt) with ⟨t, ht, hinner⟩
      rw [hj, Option.some.injEq] at ht
      rw [← ht, hcomplete] at hinner
      contradiction
    · rintro rfl
      rcases SlotState.line_closing.mp hseg.closing with ⟨t, ht, hclosing⟩
      rw [hj, Option.some.injEq] at ht
      rw [ht]
      exact hclosing
  · intro s hs
    rcases hstored s hs with ⟨j, _, _, hj, _⟩
    exact h.stored j s hj
  all_goals
    rcases Option.bind_eq_some_iff.mp hdecode with ⟨bytes, hbytes, hrest⟩
    rcases Option.map_eq_some_iff.mp hrest with ⟨decoded, hdecoded, heq⟩
    rw [Prod.mk.injEq] at heq
    obtain ⟨rfl, rfl⟩ := heq
  · exact hbytes
  · exact hdecoded

/-- An emitted item has its shreds in the slot. -/
theorem deshred (h : Provenance ledger packets slot σ out) (f : FecSetIndex) :
    Provenance ledger packets slot (σ.deshred ledger slot f).1
      (out ++ (σ.deshred ledger slot f).2.toList) := by
  have hinv : (σ.deshred ledger slot f).1.Inv slot := h.inv.deshred f
  rcases SlotState.deshred_cases ledger slot σ f with
    heq | ⟨a, e, u, entries, payload, hseg, hdecode, heq⟩
  · rw [heq]
    simpa using h
  · rw [heq] at hinv ⊢
    refine ⟨hinv, h.held, h.stored, ?_⟩
    intro d hd
    rcases List.mem_append.mp hd with hd | hd
    · exact h.emitted d hd
    · obtain rfl : d = _ := by simpa using hd
      exact ⟨_, h.sources hseg hdecode⟩

/-- Every slot keeps its provenance along a run of the machine. -/
theorem runs {calls : List Call} (h : ∀ c ∈ calls, ∀ p ∈ c.packets, p ∈ packets) (slot : Slot) :
    Provenance ledger packets slot ((Machine.runs ledger calls).machine.slots slot)
      ((Machine.runs ledger calls).emittedFor slot) := by
  apply Machine.runs_slot_invariant (P := Provenance ledger packets slot)
  · exact Provenance.initial ledger packets slot
  · rintro σ out s σ' ⟨c, hc, hs⟩ hslot hσ hin
    rcases List.mem_filterMap.mp hs with ⟨p, hp, hs⟩
    exact hσ.ingest ⟨p, h c hc p hp, hs⟩ hslot hin
  · intro σ out order f hf hσ
    exact hσ.recover order hf
  · intro σ out f _ hσ
    exact hσ.deshred f

end Provenance

/-! ## The code -/

/-- What the code pushes for one slot is what the machine emits for it. -/
theorem pushed_filter_eq {calls : List Call} {h : History} (hrun : runCalls ledger calls = .ok h)
    (slot : Slot) :
    h.pushed.filter (fun d => d.slot = slot) = (Machine.runs ledger calls).emittedFor slot := by
  rcases runCalls_sim ledger calls with ⟨h', hh', _, hall⟩
  obtain rfl : h' = h := Except.ok.inj (hh'.symm.trans hrun)
  have hpushed : h'.pushed = (Machine.runs ledger calls).outcomes.flatMap Outcome.emitted :=
    pushed_eq_emitted hall
  rw [hpushed]
  rfl

/-- What the history pushed has its shreds in the packets. -/
theorem sources_of_pushed {calls : List Call} {packets : List Packet} {h : History}
    (hpackets : ∀ c ∈ calls, ∀ p ∈ c.packets, p ∈ packets)
    (hrun : runCalls ledger calls = .ok h) {d : Deshredded} (hd : d ∈ h.pushed) :
    ∃ shreds, d.Sources ledger packets shreds := by
  apply (Provenance.runs hpackets d.slot).emitted d
  rw [← pushed_filter_eq hrun]
  exact List.mem_filter.mpr ⟨hd, by simp⟩

/-- What the history pushed for one slot has disjoint ranges. -/
theorem disjoint_of_pushed {calls : List Call} {h : History}
    (hrun : runCalls ledger calls = .ok h) :
    h.pushed.Pairwise fun d d' => d.slot = d'.slot → Disjoint d.range d'.range := by
  apply pairwise_of_filter
  intro slot
  rw [pushed_filter_eq hrun]
  exact (runs_emitted calls slot).disjoint

/-- Along every run, every pushed item was decoded from one data shred for each index of its
range, all of its own slot, of which exactly the last one completes a block of data; each of them
was carried by a packet of the run, or recovered from received shreds of its erasure set. -/
theorem pushed_from_packets (ledger : Ledger) (calls : List Call) :
    ∃ h, runCalls ledger calls = .ok h ∧
      ∀ d ∈ h.pushed, ∃ shreds, d.Sources ledger (calls.flatMap Call.packets) shreds := by
  rcases runCalls_sim ledger calls with ⟨h, hh, _, _⟩
  refine ⟨h, hh, fun d hd => ?_⟩
  exact sources_of_pushed (fun c hc p hp => List.mem_flatMap.mpr ⟨c, hc, hp⟩) hh hd

end ShredstreamProxy
