import ShredstreamProxy.Slot.Refinement
import ShredstreamProxy.Slot.Run

/-!
# The code refines the machine

Whole calls of the code on the slot map refine calls of the total machine.  The state
of the code is good when each of its entries is well formed and keeps the
representation invariant; from a good state no call panics, and its result is read off
the machine.  Pruning is invisible: the code's state simulates a machine that never
prunes.

Main results:

- Theorem {lit}`reconstructShredsNoRetain_refines`: a call without pruning returns, and
  its result is the outcome of the machine on the view of the state.
- Theorem {lit}`reconstructShreds_sim`: a call with pruning returns the same result and
  keeps simulating the machine.
- Theorem {lit}`runCalls_sim`: every run of the code returns and simulates the run of the
  machine.
-/

namespace ShredstreamProxy

open Exec KeyedFold

/-! ## Slot maps -/

namespace SlotMap

/-- The total view of a slot map. -/
def view (m : SlotMap) : Slot → SlotState := fun slot => (m.entry slot).view

/-- Every entry is well formed and keeps the representation invariant. -/
def Good (m : SlotMap) : Prop := ∀ slot, (m.entry slot).WF ∧ (m.entry slot).view.Inv slot

variable {m : SlotMap} {slot : Slot} {e : SlotEntry}

/-- The entries after one is replaced. -/
theorem entry_insert (m : SlotMap) (slot slot' : Slot) (e : SlotEntry) :
    SlotMap.entry (m.insert slot e) slot' = if slot' = slot then e else m.entry slot' := by
  unfold SlotMap.entry
  rw [Std.ExtTreeMap.getElem?_insert]
  by_cases h : slot' = slot
  · simp [h]
  · simp [h, Ne.symm h]

/-- A tracked slot has its own entry. -/
theorem entry_of_getElem? (h : m[slot]? = some e) : m.entry slot = e := by
  simp [SlotMap.entry, h]

theorem entry_of_not_mem (h : slot ∉ m) : m.entry slot = SlotEntry.default := by
  simp [SlotMap.entry, Std.ExtTreeMap.getElem?_eq_none h]

/-- Maps that track the same slots with the same entries agree. -/
theorem getElem?_eq_of_entry {m' : SlotMap} (hmem : slot ∈ m ↔ slot ∈ m')
    (hentry : m.entry slot = m'.entry slot) : m[slot]? = m'[slot]? := by
  unfold SlotMap.entry at hentry
  rw [Std.ExtTreeMap.mem_iff_isSome_getElem?, Std.ExtTreeMap.mem_iff_isSome_getElem?] at hmem
  cases h : m[slot]? with
  | none => cases h' : m'[slot]? <;> simp_all
  | some e => cases h' : m'[slot]? <;> simp_all

/-- The view after one entry is replaced. -/
theorem view_insert (m : SlotMap) (slot : Slot) (e : SlotEntry) :
    SlotMap.view (m.insert slot e) = Function.update m.view slot e.view := by
  funext slot'
  simp only [SlotMap.view, entry_insert, Function.update_apply]
  split <;> rfl

/-- A good entry keeps the map good. -/
theorem Good.insert (h : m.Good) (hwf : e.WF) (hinv : e.view.Inv slot) :
    SlotMap.Good (m.insert slot e) := by
  intro slot'
  rw [entry_insert]
  split
  · rename_i heq
    subst heq
    exact ⟨hwf, hinv⟩
  · exact h slot'

theorem mem_insert_iff {slot' : Slot} : slot' ∈ m.insert slot e ↔ slot' ∈ m ∨ slot' = slot := by
  rw [Std.ExtTreeMap.mem_insert, Std.compare_eq_iff_eq, or_comm, @eq_comm _ slot]

theorem good_empty : SlotMap.Good ∅ := by
  intro slot
  rw [entry_of_not_mem Std.ExtTreeMap.not_mem_empty, SlotEntry.view_default]
  exact ⟨SlotEntry.wf_default, SlotState.inv_initial slot⟩

/-- Inserting an entry that was there, or the default one, changes no view. -/
theorem view_insert_entry (m : SlotMap) (slot : Slot) :
    SlotMap.view (m.insert slot (m.entry slot)) = m.view := by
  rw [view_insert]
  exact Function.update_eq_self slot m.view

end SlotMap

/-! ## Ingesting -/

variable {ledger : Ledger}

/-- The ingest loop of the code refines the one of the machine. -/
structure IngestState.Refines (b : IngestState) (c : Feed) : Prop where
  good : b.allShreds.Good
  view : b.allShreds.view = c.slots
  highest : b.highestSlotSeen = c.highest
  work : b.slotFecIndexesToIterate = c.work

/-- A packet offers its shred, if it brings one, to the machine. -/
theorem ingestPacket_refines {b : IngestState} {c : Feed} (h : b.Refines c) (p : Packet) :
    ∃ b', ingestPacket ledger b p = .ok b' ∧
      b'.Refines ((packetShred ledger p).elim c (c.ingest ledger)) := by
  unfold ingestPacket
  cases hp : packetShred ledger p with
  | none => exact ⟨b, rfl, h⟩
  | some s =>
      have hadm := packetShred_admitted hp
      have hwf := (h.good s.slot).1
      have hinv := (h.good s.slot).2
      have hview : (b.allShreds.entry s.slot).view = c.slots s.slot := congrFun h.view s.slot
      have hkeep : IngestState.Refines
          { b with allShreds := b.allShreds.insert s.slot (b.allShreds.entry s.slot) } c :=
        ⟨h.good.insert hwf hinv, by rw [SlotMap.view_insert_entry]; exact h.view, h.highest,
          h.work⟩
      simp only [IngestState.stale, Option.elim_some, Feed.ingest]
      by_cases hstale : b.highestSlotSeen - slotLookback > s.slot
      · have hstale' : c.highest - slotLookback > s.slot := h.highest ▸ hstale
        simp only [hstale, hstale', if_true]
        exact ⟨_, rfl, hkeep⟩
      · have hfresh' : ¬ c.highest - slotLookback > s.slot := h.highest ▸ hstale
        simp only [hstale, hfresh', if_false]
        rcases @ingestShred_refines _ ledger hwf s hadm with ⟨o, ho, hwf', hview'⟩
        rw [hview] at hview'
        rw [ho, ← hview']
        cases o with
        | none => exact ⟨_, rfl, hkeep⟩
        | some e =>
            have hin : (b.allShreds.entry s.slot).view.ingest ledger s = some e.view := by
              rw [hview, ← hview']
              rfl
            refine ⟨_, rfl, hkeep.good.insert (hwf' e rfl) (hinv.ingest hadm rfl hin), ?_, ?_, ?_⟩
            · simp only [Option.map_some]
              rw [SlotMap.view_insert, SlotMap.view_insert_entry, h.view]
            · simp [h.highest]
            · simp [h.work]

/-- The ingest loop of the code is that of the machine, and does not panic. -/
theorem foldlM_ingestPacket_refines {b : IngestState} {c : Feed} (h : b.Refines c)
    (packets : List Packet) :
    ∃ b', packets.foldlM (ingestPacket ledger) b = .ok b' ∧
      b'.Refines ((packets.filterMap (packetShred ledger)).foldl (Feed.ingest ledger) c) := by
  rw [List.foldl_filterMap]
  refine foldlM_refines ?_ h
  intro b c p _ hbc
  rcases @ingestPacket_refines ledger b c hbc p with ⟨b', hb', hR⟩
  refine ⟨b', hb', ?_⟩
  cases hp : packetShred ledger p <;> simpa [hp] using hR

/-- What one iteration of the ingest loop can do: skip a packet without a shred, create the
slot's entry and drop the shred as stale or as known, or accept the shred. -/
theorem ingestPacket_cases {b b' : IngestState} {p : Packet}
    (h : ingestPacket ledger b p = .ok b') :
    (packetShred ledger p = none ∧ b' = b) ∨
      ∃ s, packetShred ledger p = some s ∧
        ((b.stale s.slot ∧
            b' = { b with allShreds := b.allShreds.insert s.slot (b.allShreds.entry s.slot) }) ∨
          (¬ b.stale s.slot ∧ ingestShred ledger (b.allShreds.entry s.slot) s = .ok none ∧
            b' = { b with allShreds := b.allShreds.insert s.slot (b.allShreds.entry s.slot) }) ∨
          ∃ e, ¬ b.stale s.slot ∧ ingestShred ledger (b.allShreds.entry s.slot) s = .ok (some e) ∧
            b' =
              { allShreds :=
                  (b.allShreds.insert s.slot (b.allShreds.entry s.slot)).insert s.slot e
                highestSlotSeen := max b.highestSlotSeen s.slot
                slotFecIndexesToIterate :=
                  b.slotFecIndexesToIterate ++ [(s.slot, s.fecSetIndex)] }) := by
  unfold ingestPacket at h
  cases hp : packetShred ledger p with
  | none =>
      rw [hp] at h
      exact Or.inl ⟨rfl, (Except.ok.inj h).symm⟩
  | some s =>
      simp only [hp] at h
      refine Or.inr ⟨s, rfl, ?_⟩
      split at h
      · rename_i hstale
        exact Or.inl ⟨hstale, (Except.ok.inj h).symm⟩
      · rename_i hfresh
        rcases bind_eq_ok_iff.mp h with ⟨o, ho, h⟩
        cases o with
        | none => exact Or.inr (Or.inl ⟨hfresh, ho, (Except.ok.inj h).symm⟩)
        | some e => exact Or.inr (Or.inr ⟨e, hfresh, ho, (Except.ok.inj h).symm⟩)

/-- The keys after one iteration: those from before and the slot of the packet. -/
theorem mem_of_ingestPacket {b b' : IngestState} {p : Packet}
    (h : ingestPacket ledger b p = .ok b') (slot : Slot) :
    slot ∈ b'.allShreds ↔
      slot ∈ b.allShreds ∨ ∃ s, packetShred ledger p = some s ∧ s.slot = slot := by
  rcases ingestPacket_cases h with
    ⟨hp, rfl⟩ | ⟨s, hp, ⟨_, rfl⟩ | ⟨_, _, rfl⟩ | ⟨e, _, _, rfl⟩⟩
  · simp [hp]
  · simp only [hp, Option.some.injEq, exists_eq_left', SlotMap.mem_insert_iff, @eq_comm _ slot]
  · simp only [hp, Option.some.injEq, exists_eq_left', SlotMap.mem_insert_iff, @eq_comm _ slot]
  · simp only [hp, Option.some.injEq, exists_eq_left', SlotMap.mem_insert_iff, @eq_comm _ slot,
      or_assoc, or_self]

/-- After the ingest loop the slots of all shreds are tracked, also of stale ones. -/
theorem mem_of_foldlM_ingestPacket {packets : List Packet} {b b' : IngestState}
    (h : packets.foldlM (ingestPacket ledger) b = .ok b') (slot : Slot) :
    slot ∈ b'.allShreds ↔
      slot ∈ b.allShreds ∨ ∃ s ∈ packets.filterMap (packetShred ledger), s.slot = slot := by
  induction packets generalizing b with
  | nil =>
      simp only [List.foldlM_nil, pure_eq_ok, Except.ok.injEq] at h
      simp [h]
  | cons p packets ih =>
      rw [List.foldlM_cons] at h
      rcases bind_eq_ok_iff.mp h with ⟨b₁, hb₁, hrest⟩
      rw [ih hrest, mem_of_ingestPacket hb₁]
      simp only [List.mem_filterMap, List.mem_cons]
      constructor
      · rintro ((hb | ⟨s, hs, hslot⟩) | ⟨s, ⟨q, hq, hs⟩, hslot⟩)
        · exact Or.inl hb
        · exact Or.inr ⟨s, ⟨p, Or.inl rfl, hs⟩, hslot⟩
        · exact Or.inr ⟨s, ⟨q, Or.inr hq, hs⟩, hslot⟩
      · rintro (hb | ⟨s, ⟨q, rfl | hq, hs⟩, hslot⟩)
        · exact Or.inl (Or.inl hb)
        · exact Or.inl (Or.inr ⟨s, hs, hslot⟩)
        · exact Or.inr ⟨s, ⟨q, hq, hs⟩, hslot⟩

/-! ## Recovering and deshredding -/

/-- The recovery loop of the code is that of the machine, and does not panic. -/
theorem foldlM_recoverStep_refines {order : IterOrder} {work : List (Slot × FecSetIndex)}
    {m : SlotMap} (h : m.Good) (hwork : ∀ w ∈ work, w.2 < maxDataShredsPerSlot) (n : Nat) :
    ∃ r, work.foldlM (recoverStep ledger order) (m, n) = .ok r ∧ r.1.Good ∧
      r.1.view = (keyedRun (fun _ σ f => σ.recover ledger order f) m.view work).1 ∧
      r.2 = n + ((keyedRun (fun _ σ f => σ.recover ledger order f) m.view work).2.map
        Prod.snd).sum ∧
      ∀ slot, slot ∈ r.1 ↔ slot ∈ m ∨ slot ∈ work.map Prod.fst := by
  induction work generalizing m n with
  | nil => exact ⟨(m, n), rfl, h, rfl, by simp [keyedRun], by simp⟩
  | cons w work ih =>
      have hw := hwork w List.mem_cons_self
      have hinv := (h w.1).2
      rcases @recoverFecSet_refines _ ledger order w.1 w.2 (h w.1).1 hinv hw with
        ⟨r, hr, hwf, hview⟩
      have hstate : r.1.view = (m.view w.1 |>.recover ledger order w.2).1 := congrArg Prod.fst hview
      have hcount : r.2 = (m.view w.1 |>.recover ledger order w.2).2 := congrArg Prod.snd hview
      have hinv' : r.1.view.Inv w.1 := by
        rw [hstate]
        exact hinv.recover hw
      rcases ih (h.insert hwf hinv') (fun w hw => hwork w (List.mem_cons_of_mem _ hw))
        (n + r.2) with ⟨r', hr', hgood, hview', hsum, hkeys⟩
      refine ⟨r', ?_, hgood, ?_, ?_, ?_⟩
      · simp only [List.foldlM_cons, recoverStep, hr, ok_bind, pure_eq_ok]
        exact hr'
      · rw [hview', SlotMap.view_insert, hstate]
        rfl
      · rw [hsum, SlotMap.view_insert, hstate, hcount]
        simp only [keyedRun, List.map_cons, List.sum_cons]
        omega
      · intro slot
        rw [hkeys, SlotMap.mem_insert_iff]
        simp [or_assoc]

/-- A recovery attempt changes the slot it works on as the slot machine does. -/
theorem view_recoverStep {order : IterOrder} {m m' : SlotMap} {n n' : Nat} (h : m.Good)
    {w : Slot × FecSetIndex} (hw : w.2 < maxDataShredsPerSlot)
    (hstep : recoverStep ledger order (m, n) w = .ok (m', n')) :
    m'.Good ∧ m'.view = Function.update m.view w.1 ((m.view w.1).recover ledger order w.2).1 ∧
      n' = n + ((m.view w.1).recover ledger order w.2).2 := by
  rcases @foldlM_recoverStep_refines ledger order [w] m h (by simpa using hw) n with
    ⟨r, hr, hgood, hview, hcount, _⟩
  rw [List.foldlM_cons, hstep] at hr
  obtain rfl : (m', n') = r := by simpa using hr
  exact ⟨hgood, hview, by simpa [keyedRun] using hcount⟩

/-- The deshred loop of the code is that of the machine, and does not panic. -/
theorem foldlM_deshredStep_refines {work : List (Slot × FecSetIndex)} {acc : DeshredState}
    (h : acc.allShreds.Good) :
    ∃ r, work.foldlM (deshredStep ledger) acc = .ok r ∧ r.allShreds.Good ∧
      r.allShreds.view =
        (keyedRun (fun slot σ f => σ.deshred ledger slot f) acc.allShreds.view work).1 ∧
      r.deshreddedEntries = acc.deshreddedEntries ++
        (keyedRun (fun slot σ f => σ.deshred ledger slot f) acc.allShreds.view work).2.filterMap
          Prod.snd ∧
      ∀ slot, slot ∈ r.allShreds ↔ slot ∈ acc.allShreds ∨ slot ∈ work.map Prod.fst := by
  induction work generalizing acc with
  | nil => exact ⟨acc, rfl, h, rfl, by simp [keyedRun], by simp⟩
  | cons w work ih =>
      have hinv := (h w.1).2
      rcases @deshredFecSet_refines _ (fun f => (acc.allShreds.entry w.1).fecSets[f]?) ledger w.1
        (h w.1).1 hinv w.2 with ⟨r, hr, hwf, hview⟩
      have hstate : SlotEntry.view { acc.allShreds.entry w.1 with stateTracker := r.1 } =
          ((acc.allShreds.view w.1).deshred ledger w.1 w.2).1 := congrArg Prod.fst hview
      have hout : r.2.1 = ((acc.allShreds.view w.1).deshred ledger w.1 w.2).2 :=
        congrArg Prod.snd hview
      have hinv' :
          (SlotEntry.view { acc.allShreds.entry w.1 with stateTracker := r.1 }).Inv w.1 := by
        rw [hstate]
        exact hinv.deshred w.2
      have hgood' : SlotMap.Good
          (acc.allShreds.insert w.1 { acc.allShreds.entry w.1 with stateTracker := r.1 }) :=
        h.insert hwf hinv'
      rcases @ih
        { allShreds := acc.allShreds.insert w.1 { acc.allShreds.entry w.1 with stateTracker := r.1 }
          deshreddedEntries := acc.deshreddedEntries ++ r.2.1.toList
          metrics := acc.metrics.add r.2.2 } hgood' with ⟨r', hr', hgood, hview', hpushed, hkeys⟩
      refine ⟨r', ?_, hgood, ?_, ?_, ?_⟩
      · simp only [List.foldlM_cons, deshredStep, hr, ok_bind, pure_eq_ok]
        exact hr'
      · rw [hview', SlotMap.view_insert, hstate]
        rfl
      · rw [hpushed, SlotMap.view_insert, hstate, hout]
        cases hd : ((acc.allShreds.view w.1).deshred ledger w.1 w.2).2 with
        | none => simp [keyedRun, hd]
        | some d => simp [keyedRun, hd]
      · intro slot
        rw [hkeys, SlotMap.mem_insert_iff]
        simp [or_assoc]

/-! ## Whole calls -/

/-- The machine that a state stands for. -/
def ProxyState.view (state : ProxyState) : Machine :=
  ⟨state.allShreds.view, state.highestSlotSeen⟩

/-- A call of the code returned what a call of the machine computes. -/
structure CallResult.Matches (r : CallResult) (o : Outcome) : Prop where
  work : r.slotFecIndexesToIterate = o.work
  emitted : r.deshreddedEntries = o.emitted
  count : r.recoveredCount = o.count
  highest : r.state.highestSlotSeen = o.machine.highest

/-- From a good state, a call without pruning returns the outcome of the machine. -/
theorem reconstructShredsNoRetain_refines {state : ProxyState} (h : state.allShreds.Good)
    (call : Call) :
    ∃ r, reconstructShredsNoRetain ledger call state = .ok r ∧ r.state.allShreds.Good ∧
      r.state.view = (state.view.call ledger call).machine ∧
      r.Matches (state.view.call ledger call) ∧
      ∀ slot, slot ∈ r.state.allShreds ↔
        slot ∈ state.allShreds ∨ ∃ s ∈ call.shreds ledger, s.slot = slot := by
  have hstart : state.toIngest.Refines state.view.toFeed := ⟨h, rfl, rfl, rfl⟩
  rcases @foldlM_ingestPacket_refines ledger _ _ hstart call.packets with ⟨b, hb, hR⟩
  have hbkeys := mem_of_foldlM_ingestPacket hb
  -- every piece of work stems from a shred of the call
  have hwork : ∀ w ∈ sortDedup lexLe b.slotFecIndexesToIterate,
      ∃ s ∈ call.shreds ledger, (s.slot, s.fecSetIndex) = w := by
    intro w hw
    rw [mem_sortDedup, hR.work] at hw
    exact (Feed.exists_of_mem_work hw).resolve_left List.not_mem_nil
  have hlt : ∀ w ∈ sortDedup lexLe b.slotFecIndexesToIterate, w.2 < maxDataShredsPerSlot := by
    intro w hw
    rcases hwork w hw with ⟨s, hs, rfl⟩
    exact (Call.admitted_of_mem hs).fecSetIndex_lt
  rcases @foldlM_recoverStep_refines ledger call.order _ _ hR.good hlt 0 with
    ⟨⟨m, n⟩, hm, hmgood, hmview, hn, hmkeys⟩
  rcases @foldlM_deshredStep_refines ledger (sortDedup lexLe b.slotFecIndexesToIterate)
    ⟨m, [], ServiceMetrics.zero⟩ hmgood with ⟨d, hd, hdgood, hdview, hdout, hdkeys⟩
  simp only [reconstructShredsNoRetain, hb, ok_bind, hm, hd, pure_eq_ok]
  dsimp only at hmview hn hmkeys hdview hdout hdkeys
  refine ⟨_, rfl, hdgood, ?_, ⟨?_, ?_, ?_, ?_⟩, ?_⟩
  · simp only [ProxyState.view, Machine.call, Machine.process, hdview, hmview, hR.view, hR.work,
      hR.highest]
    rfl
  · simp only [Machine.call, Machine.process, hR.work]
    rfl
  · simp only [Machine.call, Machine.process, hdout, hmview, hR.view, hR.work]
    rfl
  · simp only [Machine.call, Machine.process, hn, hR.view, hR.work, Nat.zero_add]
    rfl
  · simp only [Machine.call, Machine.process, hR.highest]
    rfl
  · intro slot
    rw [hdkeys, hmkeys, hbkeys, or_assoc, or_self]
    constructor
    · rintro (hmem | hmem)
      · exact hmem
      · rcases List.mem_map.mp hmem with ⟨w, hw, rfl⟩
        rcases hwork w hw with ⟨s, hs, rfl⟩
        exact Or.inr ⟨s, hs, rfl⟩
    · exact Or.inl

/-! ## Pruning -/

/-- The slots that the pruning step keeps. -/
def SlotMap.retained (m : SlotMap) (highestSlotSeen : Slot) : SlotMap :=
  if maxProcessingAge < m.size then
    m.filter fun slot _ => highestSlotSeen - slotLookback ≤ slot
  else m

/-- What the pruning step keeps: everything, or the slots that are not too old. -/
theorem SlotMap.getElem?_retained (m : SlotMap) (highestSlotSeen slot : Slot) :
    (m.retained highestSlotSeen)[slot]? =
      if maxProcessingAge < m.size ∧ slot < highestSlotSeen - slotLookback then none
      else m[slot]? := by
  unfold SlotMap.retained
  by_cases hsize : maxProcessingAge < m.size
  · rw [if_pos hsize, Std.ExtTreeMap.getElem?_filter']
    by_cases hlt : slot < highestSlotSeen - slotLookback
    · have hge : ¬ highestSlotSeen - slotLookback ≤ slot := Nat.not_le_of_lt hlt
      cases m[slot]? <;> simp [hsize, hlt, hge]
    · have hge : highestSlotSeen - slotLookback ≤ slot := Nat.le_of_not_lt hlt
      cases m[slot]? <;> simp [hlt, hge]
  · simp [hsize]

/-- The view after the pruning step. -/
theorem SlotMap.view_retained (m : SlotMap) (highestSlotSeen slot : Slot) :
    (m.retained highestSlotSeen).view slot =
      if maxProcessingAge < m.size ∧ slot < highestSlotSeen - slotLookback then SlotState.initial
      else m.view slot := by
  unfold SlotMap.view SlotMap.entry
  rw [SlotMap.getElem?_retained]
  split
  · exact SlotEntry.view_default
  · rfl

/-- The pruning step keeps the map good. -/
theorem SlotMap.Good.retained {m : SlotMap} (h : m.Good) (highestSlotSeen : Slot) :
    (m.retained highestSlotSeen).Good := by
  intro slot
  unfold SlotMap.entry
  rw [SlotMap.getElem?_retained]
  split
  · rw [Option.getD_none, SlotEntry.view_default]
    exact ⟨SlotEntry.wf_default, SlotState.inv_initial slot⟩
  · exact h slot

/-- Reporting the unrecovered sets of an entry never panics. -/
theorem exists_incompleteFecSets {order : IterOrder} {slot : Slot} {e : SlotEntry} (h : e.WF)
    (hinv : e.view.Inv slot) : ∃ report, incompleteFecSets order e = .ok report := by
  have hloop := foldlM_refines (R := fun _ _ => True) (l := e.fecSets.toList)
    (f := reportIncomplete order e.stateTracker) (g := fun (u : Unit) _ => u) (b := []) (c := ())
    ?_ trivial
  · rcases hloop with ⟨report, hreport, _⟩
    exact ⟨report, hreport⟩
  · intro report _ p hp _
    have hget : e.fecSets[p.1]? = some p.2 := Std.ExtTreeMap.mem_toList_iff_getElem?_eq_some.mp hp
    have hlt : p.1 < maxDataShredsPerSlot := hinv.fecSet_lt p.1 p.2 hget
    unfold reportIncomplete
    rw [index_recovered (fun f => e.fecSets[f]?) h hlt, ok_bind]
    split
    · exact ⟨_, rfl, trivial⟩
    · exact ⟨_, rfl, trivial⟩

/-- A loop whose every step returns does so itself. -/
theorem exists_mapM {α β : Type} {f : α → Exec β} {l : List α} (h : ∀ a ∈ l, ∃ b, f a = .ok b) :
    ∃ bs, l.mapM f = .ok bs := by
  induction l with
  | nil => exact ⟨[], rfl⟩
  | cons a l ih =>
      rcases h a List.mem_cons_self with ⟨b, hb⟩
      rcases ih fun x hx => h x (List.mem_cons_of_mem a hx) with ⟨bs, hbs⟩
      exact ⟨b :: bs, by simp [List.mapM_cons, hb, hbs]⟩

/-- Pruning a good map never panics. -/
theorem prune_of_good {m : SlotMap} (h : m.Good) (order : IterOrder) (highestSlotSeen : Slot) :
    ∃ missed, prune order m highestSlotSeen = .ok (m.retained highestSlotSeen, missed) := by
  unfold prune SlotMap.retained
  by_cases hsize : maxProcessingAge < m.size
  · simp only [hsize, if_true]
    have hdropped : ∀ p ∈ m.toList.filter fun p => p.1 < highestSlotSeen - slotLookback,
        ∃ r : Slot × List (FecSetIndex × Nat × Nat), (do
          let sets ← incompleteFecSets order p.2
          pure (p.1, sets)) = (.ok r : Exec _) := by
      intro p hp
      have hget : m[p.1]? = some p.2 :=
        Std.ExtTreeMap.mem_toList_iff_getElem?_eq_some.mp (List.mem_filter.mp hp).1
      have hentry := h p.1
      rw [SlotMap.entry_of_getElem? hget] at hentry
      rcases @exists_incompleteFecSets order _ _ hentry.1 hentry.2 with ⟨sets, hsets⟩
      exact ⟨(p.1, sets), by simp [hsets]⟩
    rcases exists_mapM hdropped with ⟨missed, hmissed⟩
    rw [hmissed]
    exact ⟨_, rfl⟩
  · simp only [hsize, if_false]
    exact ⟨_, rfl⟩

/-- A call is the call without pruning, followed by dropping old slots. -/
theorem reconstructShreds_eq {state : ProxyState} {call : Call} {r : CallResult}
    (h : reconstructShredsNoRetain ledger call state = .ok r) (hgood : r.state.allShreds.Good) :
    ∃ r', reconstructShreds ledger call state = .ok r' ∧
      r'.state = ⟨r.state.allShreds.retained r.state.highestSlotSeen, r.state.highestSlotSeen⟩ ∧
      r'.slotFecIndexesToIterate = r.slotFecIndexesToIterate ∧
      r'.deshreddedEntries = r.deshreddedEntries ∧ r'.recoveredCount = r.recoveredCount := by
  rcases prune_of_good hgood call.order r.state.highestSlotSeen with ⟨missed, hmissed⟩
  refine ⟨{ r with
    state := ⟨r.state.allShreds.retained r.state.highestSlotSeen, r.state.highestSlotSeen⟩
    missedFecSets := missed }, ?_, rfl, rfl, rfl, rfl⟩
  simp only [reconstructShreds, h, ok_bind, hmissed, pure_eq_ok]

/-! ## The simulation -/

/-- A state of the code simulates a machine that never prunes: its slots are those of the
machine, apart from old slots that were dropped. -/
structure Sim (state : ProxyState) (m : Machine) : Prop where
  good : state.allShreds.Good
  highest : state.highestSlotSeen = m.highest
  slots : ∀ slot, state.allShreds.view slot = m.slots slot ∨
    slot < m.highest - slotLookback ∧ state.allShreds.view slot = SlotState.initial

theorem ProxyState.view_initial : ProxyState.initial.view = Machine.initial := by
  unfold ProxyState.view Machine.initial
  congr 1
  funext slot
  rw [SlotMap.view, ProxyState.initial, SlotMap.entry_of_not_mem Std.ExtTreeMap.not_mem_empty,
    SlotEntry.view_default]

theorem sim_initial : Sim ProxyState.initial Machine.initial where
  good := SlotMap.good_empty
  highest := rfl
  slots := fun slot => Or.inl (congrFun (congrArg Machine.slots ProxyState.view_initial) slot)

/-- A state of the code agrees with the machine that it simulates. -/
theorem Sim.agree {state : ProxyState} {m : Machine} (h : Sim state m) :
    Machine.Agree state.view m where
  highest := h.highest
  slots := by
    intro slot hle
    rcases h.slots slot with heq | ⟨hlt, _⟩
    · exact heq
    · have hle' : m.highest - slotLookback ≤ slot := h.highest ▸ hle
      exact absurd hlt (Nat.not_lt_of_le hle')

/-- A call of the code returns the outcome of the machine and simulates it again. -/
theorem reconstructShreds_sim {state : ProxyState} {m : Machine} (h : Sim state m) (call : Call) :
    ∃ r, reconstructShreds ledger call state = .ok r ∧
      Sim r.state (m.call ledger call).machine ∧ r.Matches (m.call ledger call) := by
  rcases @reconstructShredsNoRetain_refines ledger state h.good call with
    ⟨r, hr, hgood, hview, hmatch, _⟩
  rcases reconstructShreds_eq hr hgood with ⟨r', hr', hstate, hwork, hpushed, hcount⟩
  have hsame := @Machine.Agree.process ledger call.order _ _ h.agree (call.shreds ledger)
  have hhighest : r.state.highestSlotSeen = (m.call ledger call).machine.highest :=
    hmatch.highest.trans hsame.1.highest
  refine ⟨r', hr', ⟨?_, ?_, ?_⟩, ⟨?_, ?_, ?_, ?_⟩⟩
  · rw [hstate]
    exact hgood.retained _
  · rw [hstate]
    exact hhighest
  · intro slot
    rw [hstate]
    simp only [SlotMap.view_retained, hhighest]
    split
    · rename_i hold
      exact Or.inr ⟨hold.2, rfl⟩
    · have hslot : r.state.allShreds.view slot =
          ((state.allShreds.view slot).process ledger call.order slot
            (m.offered ledger (call.shreds ledger) slot)).1 := by
        rw [← h.agree.offered_eq]
        exact (congrFun (congrArg Machine.slots hview) slot).trans (Machine.process_slot _ _ _)
      rcases h.slots slot with heq | ⟨hlt, hinit⟩
      · refine Or.inl ?_
        rw [hslot, heq]
        exact (Machine.process_slot m _ slot).symm
      · refine Or.inr ⟨hlt.trans_le (Nat.sub_le_sub_right ?_ _), ?_⟩
        · exact Machine.highest_le_process m _
        · rw [hslot, Machine.offered_eq_nil_of_dead hlt, SlotState.process_nil]
          exact hinit
  · exact hwork.trans (hmatch.work.trans hsame.2.1)
  · exact hpushed.trans (hmatch.emitted.trans hsame.2.2.1)
  · exact hcount.trans (hmatch.count.trans hsame.2.2.2)
  · rw [hstate]
    exact hhighest

/-- Every run of the code returns and simulates the run of the machine. -/
theorem runCalls_sim (ledger : Ledger) (calls : List Call) :
    ∃ h, runCalls ledger calls = .ok h ∧ Sim h.state (Machine.runs ledger calls).machine ∧
      List.Forall₂ CallResult.Matches h.results (Machine.runs ledger calls).outcomes := by
  refine foldlM_refines
    (R := fun (h : History) (r : Machine.Run) =>
      Sim h.state r.machine ∧ List.Forall₂ CallResult.Matches h.results r.outcomes)
    ?_ ⟨sim_initial, List.Forall₂.nil⟩
  rintro h r call _ ⟨hsim, hall⟩
  rcases @reconstructShreds_sim ledger _ _ hsim call with ⟨r', hr', hsim', hmatch⟩
  refine ⟨⟨r'.state, h.results ++ [r']⟩, by simp [History.extend, hr'], hsim', ?_⟩
  exact List.rel_append hall (List.Forall₂.cons hmatch List.Forall₂.nil)

/-- After every run the code simulates the machine. -/
theorem sim_of_runCalls {calls : List Call} {h : History} (hh : runCalls ledger calls = .ok h) :
    Sim h.state (Machine.runs ledger calls).machine := by
  rcases runCalls_sim ledger calls with ⟨h', hh', hsim, _⟩
  obtain rfl := Except.ok.inj (hh.symm.trans hh')
  exact hsim

/-- Every run without pruning returns and is exactly the run of the machine. -/
theorem runCallsNoRetain_sim (ledger : Ledger) (calls : List Call) :
    ∃ h, runCallsNoRetain ledger calls = .ok h ∧ h.state.allShreds.Good ∧
      h.state.view = (Machine.runs ledger calls).machine ∧
      List.Forall₂ CallResult.Matches h.results (Machine.runs ledger calls).outcomes := by
  refine foldlM_refines
    (R := fun (h : History) (r : Machine.Run) =>
      h.state.allShreds.Good ∧ h.state.view = r.machine ∧
        List.Forall₂ CallResult.Matches h.results r.outcomes)
    ?_ ⟨sim_initial.good, ProxyState.view_initial, List.Forall₂.nil⟩
  rintro h r call _ ⟨hgood, hview, hall⟩
  rcases @reconstructShredsNoRetain_refines ledger _ hgood call with
    ⟨r', hr', hgood', hview', hmatch, _⟩
  rw [hview] at hview' hmatch
  refine ⟨⟨r'.state, h.results ++ [r']⟩, by simp [History.extend, hr'], hgood', hview', ?_⟩
  exact List.rel_append hall (List.Forall₂.cons hmatch List.Forall₂.nil)

/-! ## Turns of packets -/

/-- Some call of the run is in state `b` when its ingest loop comes to packet `p`. -/
def Turn (ledger : Ledger) (calls : List Call) (b : IngestState) (p : Packet) : Prop :=
  ∃ before c after h earlier later, calls = before ++ c :: after ∧
    runCalls ledger before = .ok h ∧ c.packets = earlier ++ p :: later ∧
    earlier.foldlM (ingestPacket ledger) h.state.toIngest = .ok b

theorem Turn.of_prefix {before after : List Call} {b : IngestState} {p : Packet}
    (h : Turn ledger before b p) : Turn ledger (before ++ after) b p := by
  rcases h with ⟨before', c, after', h, earlier, later, rfl, hrest⟩
  exact ⟨before', c, after' ++ after, h, earlier, later, by simp, hrest⟩

/-- After some packets of a call, a slot that is not stale holds what the machine holds after
the shreds of these packets were offered. -/
theorem view_of_ingested {state : ProxyState} {m : Machine} (hsim : Sim state m)
    {packets : List Packet} {b : IngestState}
    (hb : packets.foldlM (ingestPacket ledger) state.toIngest = .ok b) {slot : Slot}
    (hfresh : ¬ b.stale slot) :
    b.allShreds.Good ∧ b.allShreds.view slot =
      ((m.slots slot).feed ledger
        (m.offered ledger (packets.filterMap (packetShred ledger)) slot)).1 := by
  have hstart : state.toIngest.Refines state.view.toFeed := ⟨hsim.good, rfl, rfl, rfl⟩
  rcases @foldlM_ingestPacket_refines ledger _ _ hstart packets with ⟨b', hb', hR⟩
  obtain rfl := Except.ok.inj (hb.symm.trans hb')
  refine ⟨hR.good, ?_⟩
  have hagree := @Feed.Agree.foldl ledger _ _ _ hsim.agree.toFeed
    (packets.filterMap (packetShred ledger))
  have hlive : state.view.highest - slotLookback ≤ slot := by
    refine hagree.floor_le.trans (Nat.le_of_not_lt ?_)
    rw [← hR.highest]
    exact hfresh
  have hslot := congrArg Prod.fst (@Machine.feed_slot ledger m
    (packets.filterMap (packetShred ledger)) slot)
  rw [hR.view, hagree.slots slot hlive]
  exact hslot

/-! ## Extending and comparing runs -/

/-- A run of one more call returns exactly when the shorter run and the call do. -/
theorem foldlM_extend_concat {step : Call → ProxyState → Exec CallResult} {calls : List Call}
    {call : Call} {h₀ h' : History} :
    (calls ++ [call]).foldlM (History.extend step) h₀ = .ok h' ↔
      ∃ h r, calls.foldlM (History.extend step) h₀ = .ok h ∧ step call h.state = .ok r ∧
        h' = ⟨r.state, h.results ++ [r]⟩ := by
  rw [List.foldlM_append, bind_eq_ok_iff]
  constructor
  · rintro ⟨h, hh, hlast⟩
    simp only [List.foldlM_cons, List.foldlM_nil, History.extend, bind_assoc] at hlast
    rcases bind_eq_ok_iff.mp hlast with ⟨r, hr, heq⟩
    exact ⟨h, r, hh, hr, (Except.ok.inj heq).symm⟩
  · rintro ⟨h, r, hh, hr, rfl⟩
    exact ⟨h, hh, by simp [History.extend, hr]⟩

theorem runCalls_concat {calls : List Call} {call : Call} {h' : History} :
    runCalls ledger (calls ++ [call]) = .ok h' ↔
      ∃ h r, runCalls ledger calls = .ok h ∧ reconstructShreds ledger call h.state = .ok r ∧
        h' = ⟨r.state, h.results ++ [r]⟩ :=
  foldlM_extend_concat

section Matching

variable {results : List CallResult} {outcomes : List Outcome}

/-- Every result of a call has the outcome of the machine that it matches. -/
theorem exists_matching (h : List.Forall₂ CallResult.Matches results outcomes) {r : CallResult}
    (hr : r ∈ results) : ∃ o ∈ outcomes, r.Matches o := by
  induction h with
  | nil => exact absurd hr List.not_mem_nil
  | cons hhead _ ih =>
      rcases List.mem_cons.mp hr with rfl | hr
      · exact ⟨_, List.mem_cons_self, hhead⟩
      · rcases ih hr with ⟨o, ho, hmatch⟩
        exact ⟨o, List.mem_cons_of_mem _ ho, hmatch⟩

/-- Results that match outcomes push what these emit. -/
theorem pushed_eq_emitted (h : List.Forall₂ CallResult.Matches results outcomes) :
    results.flatMap CallResult.deshreddedEntries = outcomes.flatMap Outcome.emitted := by
  induction h with
  | nil => rfl
  | cons hhead _ ih => simp [hhead.emitted, ih]

end Matching

end ShredstreamProxy
