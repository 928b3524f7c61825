import ShredstreamProxy.Properties.Pruning

/-!
# Slots do not interfere

The slots of a call share the work list, the highest slot seen, the output vector and
the pruning pass.  The only way from one slot to another is the highest slot seen, which
can make a slot stale.  A run in which no shred of a slot is stale therefore treats that
slot as the run on its packets alone does.

Main results:

- Theorem {lit}`Machine.runs_slot_eq`: one slot of the full run and of the projected run.
- Theorem {lit}`view_of_never_removed`: until it is pruned, a slot of the code is the slot of
  the machine.
- Theorem {lit}`slot_isolated`: the two-run statement about the code.
-/

namespace ShredstreamProxy

open Exec KeyedFold

variable {ledger : Ledger} {slot : Slot}

/-- The call without the packets of other slots. -/
def Call.only (ledger : Ledger) (slot : Slot) (c : Call) : Call :=
  { c with packets := c.packets.filter fun p => (packetShred ledger p).all fun s => s.slot = slot }

/-- What a call carries for one slot. -/
theorem Call.shreds_only (c : Call) :
    (c.only ledger slot).shreds ledger = (c.shreds ledger).filter fun s => s.slot = slot := by
  unfold Call.shreds Call.only
  rw [List.filterMap_filter, List.filter_filterMap]
  congr 1
  funext p
  cases packetShred ledger p with
  | none => simp
  | some s => by_cases hs : s.slot = slot <;> simp [hs, Option.filter]

/-- No packet of the slot is stale when its turn comes. -/
def NeverStale (ledger : Ledger) (calls : List Call) (slot : Slot) : Prop :=
  ∀ b p s, Turn ledger calls b p → packetShred ledger p = some s → s.slot = slot → ¬ b.stale slot

theorem NeverStale.of_append {before after : List Call}
    (h : NeverStale ledger (before ++ after) slot) : NeverStale ledger before slot :=
  fun b p s hturn => h b p s hturn.of_prefix

/-! ## The machine -/

/-- A slot without stale shreds is offered all of its shreds. -/
theorem offered_of_neverStale {before after : List Call} {c : Call}
    (h : NeverStale ledger (before ++ c :: after) slot) :
    (Machine.runs ledger before).machine.offered ledger (c.shreds ledger) slot =
      (c.shreds ledger).filter fun s => s.slot = slot := by
  rcases runCalls_sim ledger before with ⟨hist, hhist, hsim, _⟩
  refine Feed.live_filter_of_fresh ?_
  intro pre s post hsplit hslot
  rcases List.filterMap_eq_append_iff.mp hsplit with ⟨earlier, rest, hpackets, rfl, hrest⟩
  rcases List.filterMap_eq_cons_iff.mp hrest with ⟨skipped, p, later, rfl, hskipped, hp, _⟩
  have hstart : hist.state.toIngest.Refines hist.state.view.toFeed := ⟨hsim.good, rfl, rfl, rfl⟩
  rcases @foldlM_ingestPacket_refines ledger _ _ hstart (earlier ++ skipped) with ⟨b, hb, hR⟩
  have hnone : skipped.filterMap (packetShred ledger) = [] :=
    List.filterMap_eq_nil_iff.mpr hskipped
  rw [List.filterMap_append, hnone, List.append_nil] at hR
  have hfresh := h b p s ⟨before, c, after, hist, earlier ++ skipped, later, rfl, hhist,
    by rw [hpackets, List.append_assoc], hb⟩ hp hslot
  have hagree := @Feed.Agree.foldl ledger _ _ _ hsim.agree.toFeed
    (earlier.filterMap (packetShred ledger))
  unfold IngestState.stale at hfresh
  rw [hR.highest, hagree.highest] at hfresh
  exact hfresh

/-- The ingest loop stays below a bound on its shreds. -/
theorem Feed.highest_le_of_forall {m : Feed} {l : List Shred} {bound : Slot}
    (hm : m.highest ≤ bound) (h : ∀ s ∈ l, s.slot ≤ bound) :
    (l.foldl (Feed.ingest ledger) m).highest ≤ bound := by
  induction l generalizing m with
  | nil => exact hm
  | cons s l ih =>
      refine ih ?_ fun t ht => h t (List.mem_cons_of_mem s ht)
      unfold Feed.ingest
      split
      · exact hm
      · split
        · exact hm
        · exact max_le hm (h s List.mem_cons_self)

namespace Machine

/-- A run has seen no higher slot than its packets have. -/
theorem highest_le_of_forall {calls : List Call} {bound : Slot}
    (h : ∀ c ∈ calls, ∀ s ∈ c.shreds ledger, s.slot ≤ bound) :
    (runs ledger calls).machine.highest ≤ bound := by
  induction calls using List.reverseRecOn with
  | nil => exact Nat.zero_le bound
  | append_singleton calls c ih =>
      rw [runs_concat]
      exact Feed.highest_le_of_forall (m := (runs ledger calls).machine.toFeed)
        (ih fun c' hc' => h c' (List.mem_append_left _ hc')) (h c (by simp))

/-- The run on one slot's packets has seen no higher slot. -/
theorem highest_only_le (calls : List Call) :
    (runs ledger (calls.map (Call.only ledger slot))).machine.highest ≤ slot := by
  refine highest_le_of_forall ?_
  intro c hc s hs
  rcases List.mem_map.mp hc with ⟨c', _, rfl⟩
  rw [Call.shreds_only] at hs
  exact le_of_eq (by simpa using (List.mem_filter.mp hs).2)

/-- The run of one slot alone offers it all its shreds. -/
theorem offered_only (calls : List Call) (c : Call) :
    (runs ledger (calls.map (Call.only ledger slot))).machine.offered ledger
        ((c.only ledger slot).shreds ledger) slot =
      (c.shreds ledger).filter fun s => s.slot = slot := by
  rw [Call.shreds_only]
  unfold offered
  rw [Feed.live_filter_of_fresh, List.filter_filter]
  · simp
  · intro pre s post hsplit _ hstale
    have hpre : ∀ t ∈ pre, t.slot ≤ slot := by
      intro t ht
      have hmem : t ∈ (c.shreds ledger).filter fun s => s.slot = slot := by
        rw [hsplit]
        exact List.mem_append_left _ ht
      exact le_of_eq (by simpa using (List.mem_filter.mp hmem).2)
    have hle := @Feed.highest_le_of_forall ledger
      (runs ledger (calls.map (Call.only ledger slot))).machine.toFeed pre slot
      (highest_only_le calls) hpre
    exact absurd hstale (Nat.not_lt_of_le ((Nat.sub_le _ _).trans hle))

end Machine

/-- Packets are not stale while no packet lies too far ahead of them. -/
theorem neverStale_of_close {calls : List Call}
    (h : ∀ c ∈ calls, ∀ s ∈ c.shreds ledger, s.slot ≤ slot + slotLookback) :
    NeverStale ledger calls slot := by
  rintro b p s ⟨before, c, after, hist, earlier, later, rfl, hhist, hpackets, hb⟩ _ _ hstale
  have hsim := sim_of_runCalls hhist
  have hstart : hist.state.toIngest.Refines hist.state.view.toFeed := ⟨hsim.good, rfl, rfl, rfl⟩
  rcases @foldlM_ingestPacket_refines ledger _ _ hstart earlier with ⟨b', hb', hR⟩
  obtain rfl := Except.ok.inj (hb.symm.trans hb')
  have hbefore : hist.state.highestSlotSeen ≤ slot + slotLookback := by
    rw [hsim.highest]
    exact Machine.highest_le_of_forall fun c' hc' => h c' (List.mem_append_left _ hc')
  have hle : b.highestSlotSeen ≤ slot + slotLookback := by
    rw [hR.highest]
    refine Feed.highest_le_of_forall (m := hist.state.view.toFeed) hbefore ?_
    intro t ht
    refine h c (by simp) t ?_
    rw [Call.shreds, hpackets, List.filterMap_append]
    exact List.mem_append_left _ ht
  exact absurd hstale (Nat.not_lt_of_le (Nat.sub_le_of_le_add hle))

namespace Machine

/-- One slot of the full run and of the run on that slot's packets. -/
theorem runs_slot_eq {calls : List Call} (h : NeverStale ledger calls slot) :
    (runs ledger calls).machine.slots slot =
        (runs ledger (calls.map (Call.only ledger slot))).machine.slots slot ∧
      (runs ledger calls).outcomes.map (fun o => o.emitted.filter fun d => d.slot = slot) =
        (runs ledger (calls.map (Call.only ledger slot))).outcomes.map
          (fun o => o.emitted.filter fun d => d.slot = slot) := by
  induction calls using List.reverseRecOn with
  | nil => exact ⟨rfl, rfl⟩
  | append_singleton calls c ih =>
      have hprev := ih h.of_append
      have hoffered := offered_of_neverStale h
      have honly := @offered_only ledger slot calls c
      rw [List.map_append, List.map_singleton, runs_concat, runs_concat]
      simp only [Run.extend, call, process_slot, process_emitted, hoffered, honly, hprev.1,
        hprev.2, List.map_append, List.map_singleton]
      exact ⟨rfl, rfl⟩

end Machine

/-! ## The code -/

/-- No call of the run prunes the slot. -/
def NeverRemoved (ledger : Ledger) (calls : List Call) (slot : Slot) : Prop :=
  ∀ before c after h, calls = before ++ c :: after → runCalls ledger before = .ok h →
    ¬ Removes ledger c h.state slot

/-- One slot of a call: before pruning it is what the one-slot call makes of it, and pruning
drops it or leaves it as it is. -/
theorem reconstructShreds_slot {state : ProxyState} {m : Machine} (hsim : Sim state m) {c : Call}
    {r : CallResult} (hr : reconstructShreds ledger c state = .ok r) (slot : Slot) :
    ∃ r₀, reconstructShredsNoRetain ledger c state = .ok r₀ ∧
      (slot ∈ r₀.state.allShreds ↔
        slot ∈ state.allShreds ∨ ∃ s ∈ c.shreds ledger, s.slot = slot) ∧
      (r.state.allShreds[slot]? = none ∨
        r.state.allShreds[slot]? = r₀.state.allShreds[slot]?) ∧
      r₀.state.allShreds.view slot = ((state.allShreds.view slot).process ledger c.order slot
        (m.offered ledger (c.shreds ledger) slot)).1 := by
  rcases @reconstructShredsNoRetain_refines ledger state hsim.good c with
    ⟨r₀, hr₀, hgood₀, hview, _, hkeys⟩
  rcases reconstructShreds_eq hr₀ hgood₀ with ⟨r', hr', hstate, _⟩
  obtain rfl := Except.ok.inj (hr.symm.trans hr')
  refine ⟨r₀, hr₀, hkeys slot, ?_, ?_⟩
  · rw [hstate]
    simp only [SlotMap.getElem?_retained]
    split
    · exact Or.inl rfl
    · exact Or.inr rfl
  · rw [← hsim.agree.offered_eq]
    exact (congrFun (congrArg Machine.slots hview) slot).trans (Machine.process_slot _ _ _)

/-- Maps with the same entry for a slot both track it, or neither does. -/
theorem SlotMap.mem_of_getElem?_eq {m m' : SlotMap} (h : m[slot]? = m'[slot]?) :
    slot ∈ m ↔ slot ∈ m' := by
  rw [Std.ExtTreeMap.mem_iff_isSome_getElem?, h, ← Std.ExtTreeMap.mem_iff_isSome_getElem?]

/-- Maps with the same entry for a slot have the same view of it. -/
theorem SlotMap.view_of_getElem?_eq {m m' : SlotMap} (h : m[slot]? = m'[slot]?) :
    m.view slot = m'.view slot := by
  unfold SlotMap.view SlotMap.entry
  rw [h]

/-- Until it is pruned, a slot of the code is the slot of the machine, and it is tracked as
soon as a packet of it was seen. -/
theorem view_of_never_removed {calls : List Call} (hkept : NeverRemoved ledger calls slot)
    {h : History} (hh : runCalls ledger calls = .ok h) :
    h.state.allShreds.view slot = (Machine.runs ledger calls).machine.slots slot ∧
      (slot ∈ h.state.allShreds ↔ ∃ c ∈ calls, ∃ s ∈ c.shreds ledger, s.slot = slot) := by
  induction calls using List.reverseRecOn generalizing h with
  | nil =>
      obtain rfl := Except.ok.inj hh
      refine ⟨congrFun (congrArg Machine.slots ProxyState.view_initial) slot, ?_⟩
      constructor
      · exact fun hmem => absurd hmem Std.ExtTreeMap.not_mem_empty
      · rintro ⟨c, hc, _⟩
        exact absurd hc List.not_mem_nil
  | append_singleton calls c ih =>
      rcases runCalls_concat.mp hh with ⟨h₁, r, hh₁, hr, rfl⟩
      have hprev := ih (fun before c' after hist hsplit =>
        hkept before c' (after ++ [c]) hist (by simp [hsplit])) hh₁
      rcases reconstructShreds_slot (sim_of_runCalls hh₁) hr slot with
        ⟨r₀, hr₀, hkeys, hpruned, hslot⟩
      have hsame : r.state.allShreds[slot]? = r₀.state.allShreds[slot]? := by
        rcases hpruned with hnone | hsame
        · have hnot : slot ∉ r.state.allShreds := by
            rw [Std.ExtTreeMap.mem_iff_isSome_getElem?, hnone]
            simp
          have hnot₀ : slot ∉ r₀.state.allShreds := fun hmem =>
            hkept calls c [] h₁ (by simp) hh₁ ⟨r, r₀, hr, hr₀, hmem, hnot⟩
          rw [hnone, Std.ExtTreeMap.getElem?_eq_none hnot₀]
        · exact hsame
      constructor
      · rw [SlotMap.view_of_getElem?_eq hsame, hslot, hprev.1, Machine.runs_concat]
        exact (Machine.process_slot _ _ _).symm
      · simp only [SlotMap.mem_of_getElem?_eq hsame, hkeys, hprev.2, List.mem_append,
          List.mem_singleton]
        constructor
        · rintro (⟨c', hc', hs⟩ | hs)
          · exact ⟨c', Or.inl hc', hs⟩
          · exact ⟨c, Or.inr rfl, hs⟩
        · rintro ⟨c', hc' | rfl, hs⟩
          · exact Or.inl ⟨c', hc', hs⟩
          · exact Or.inr hs

/-- A slot without stale packets that is tracked is the slot of the machine. -/
theorem view_of_mem {calls : List Call} (hfresh : NeverStale ledger calls slot) {h : History}
    (hh : runCalls ledger calls = .ok h) (hmem : slot ∈ h.state.allShreds) :
    h.state.allShreds.view slot = (Machine.runs ledger calls).machine.slots slot := by
  induction calls using List.reverseRecOn generalizing h with
  | nil =>
      obtain rfl := Except.ok.inj hh
      exact absurd hmem Std.ExtTreeMap.not_mem_empty
  | append_singleton calls c ih =>
      rcases runCalls_concat.mp hh with ⟨h₁, r, hh₁, hr, rfl⟩
      have hsim := sim_of_runCalls hh₁
      rcases reconstructShreds_slot hsim hr slot with ⟨r₀, hr₀, hkeys, hpruned, hslot⟩
      have hsame : r.state.allShreds[slot]? = r₀.state.allShreds[slot]? := by
        refine hpruned.resolve_left fun hnone => ?_
        rw [Std.ExtTreeMap.mem_iff_isSome_getElem?, hnone] at hmem
        contradiction
      -- the slot was tracked before, or it is not too old for the shred that came now
      have hprev : h₁.state.allShreds.view slot =
          (Machine.runs ledger calls).machine.slots slot := by
        rw [SlotMap.mem_of_getElem?_eq hsame, hkeys] at hmem
        rcases hmem with hmem | ⟨s, hs, hslot⟩
        · exact ih hfresh.of_append hh₁ hmem
        · rcases hsim.slots slot with heq | ⟨hdead, _⟩
          · exact heq
          · have hnil := @Machine.offered_eq_nil_of_dead ledger _ slot hdead (c.shreds ledger)
            rw [offered_of_neverStale hfresh, List.filter_eq_nil_iff] at hnil
            exact absurd (by simpa using hslot) (hnil s hs)
      rw [SlotMap.view_of_getElem?_eq hsame, hslot, hprev, Machine.runs_concat]
      exact (Machine.process_slot _ _ _).symm

/-- In the run of one slot alone, this slot is never dropped. -/
theorem neverRemoved_only (calls : List Call) :
    NeverRemoved ledger (calls.map (Call.only ledger slot)) slot := by
  intro before c after h hsplit hh hrem
  rcases List.map_eq_append_iff.mp hsplit with ⟨before', rest, rfl, rfl, hrest⟩
  rcases List.map_eq_cons_iff.mp hrest with ⟨c', after', rfl, rfl, _⟩
  rcases lt_of_removes (sim_of_runCalls hh).good hrem with ⟨r, hr, hlt⟩
  have hnext := sim_of_runCalls (runCalls_concat.mpr ⟨h, r, hh, hr, rfl⟩)
  have hle := @Machine.highest_only_le ledger slot (before' ++ [c'])
  rw [List.map_append, List.map_singleton, ← hnext.highest] at hle
  exact absurd hlt (Nat.not_lt_of_le ((Nat.sub_le _ _).trans hle))

/-- The items a call pushed for one slot. -/
def CallResult.pushedFor (slot : Slot) (r : CallResult) : List Deshredded :=
  r.deshreddedEntries.filter fun d => d.slot = slot

/-- Results that match outcomes push for a slot what these emit for it. -/
theorem pushedFor_of_matches {results : List CallResult} {outcomes : List Outcome}
    (h : List.Forall₂ CallResult.Matches results outcomes) :
    results.map (CallResult.pushedFor slot) =
      outcomes.map fun o => o.emitted.filter fun d => d.slot = slot := by
  induction h with
  | nil => rfl
  | cons hhead _ ih => simp [CallResult.pushedFor, hhead.emitted, ih]

/-- When no packet of a slot is stale, the run on all packets and the run on the packets of
that slot push the same items for it in every call, and hold the same entry for it as long
as no call has pruned it. -/
theorem slot_isolated (ledger : Ledger) (calls : List Call) (slot : Slot)
    (hfresh : NeverStale ledger calls slot) :
    ∃ h h', runCalls ledger calls = .ok h ∧
      runCalls ledger (calls.map (Call.only ledger slot)) = .ok h' ∧
      h.results.map (CallResult.pushedFor slot) = h'.results.map (CallResult.pushedFor slot) ∧
      (NeverRemoved ledger calls slot → h.state.allShreds[slot]? = h'.state.allShreds[slot]?) := by
  rcases runCalls_sim ledger calls with ⟨h, hh, hsim, hall⟩
  rcases runCalls_sim ledger (calls.map (Call.only ledger slot)) with ⟨h', hh', hsim', hall'⟩
  have hslot := Machine.runs_slot_eq hfresh
  refine ⟨h, h', hh, hh', ?_, ?_⟩
  · rw [pushedFor_of_matches hall, pushedFor_of_matches hall']
    exact hslot.2
  · intro hkept
    have hfull := view_of_never_removed hkept hh
    have honly := view_of_never_removed (neverRemoved_only calls) hh'
    refine SlotMap.getElem?_eq_of_entry ?_ ?_
    · rw [hfull.2, honly.2]
      simp only [List.mem_map, exists_exists_and_eq_and, Call.shreds_only, List.mem_filter,
        decide_eq_true_eq]
      constructor
      · rintro ⟨c, hc, s, hs, hslot⟩
        exact ⟨c, hc, s, ⟨hs, hslot⟩, hslot⟩
      · rintro ⟨c, hc, s, ⟨hs, _⟩, hslot⟩
        exact ⟨c, hc, s, hs, hslot⟩
    · refine SlotEntry.view_injective (hsim.good slot).1 (hsim'.good slot).1 ?_
      exact hfull.1.trans (hslot.1.trans honly.1.symm)

/-- Two slots of the small ledger in one run. -/
theorem slot_isolated_sample :
    NeverStale Ledger.sample [Sample.call [1, 4, 3], Sample.call [0, 5]] 0 ∧
      ∃ h h', runCalls Ledger.sample [Sample.call [1, 4, 3], Sample.call [0, 5]] = .ok h ∧
        runCalls Ledger.sample
          ([Sample.call [1, 4, 3], Sample.call [0, 5]].map (Call.only Ledger.sample 0)) = .ok h' ∧
        h.results.map (CallResult.pushedFor 0) = h'.results.map (CallResult.pushedFor 0) := by
  have hfresh : NeverStale Ledger.sample [Sample.call [1, 4, 3], Sample.call [0, 5]] 0 :=
    neverStale_of_close (by decide)
  rcases slot_isolated Ledger.sample [Sample.call [1, 4, 3], Sample.call [0, 5]] 0 hfresh with
    ⟨h, h', hh, hh', hpushed, _⟩
  exact ⟨hfresh, h, h', hh, hh', hpushed⟩

end ShredstreamProxy
