import ShredstreamProxy.Slot.Simulation

/-!
# Pruning old slots

The pruning step drops slots below the highest slot seen minus the lookback, and the
ingest loop turns away shreds of just these slots.  The threshold only moves forward, so
a dropped slot can never be told apart from one that was kept; and since an entry is
created only for a shred that is stale or accepted, the map stays small.

Main results:

- Theorem {lit}`Machine.work_ge` and {lit}`Machine.later_work_ge`: no call accepts a shred
  below the threshold of an earlier state.
- Theorem {lit}`pruning_unobservable`: runs with and without pruning agree.
- Theorem {lit}`slot_map_bounded`: the bounds on the slot map and on the highest slot seen.
-/

namespace ShredstreamProxy

open Exec KeyedFold

variable {ledger : Ledger}

/-! ## The threshold only moves forward -/

namespace Machine

/-- A call accepts no shred below the threshold it started with. -/
theorem work_ge {m : Machine} {c : Call} {w : Slot × FecSetIndex}
    (h : w ∈ (m.call ledger c).work) : m.highest - slotLookback ≤ w.1 := by
  have hfeed := @Feed.Agree.foldl ledger _ _ _ (Agree.refl m).toFeed (c.shreds ledger)
  exact hfeed.work_ge w (mem_sortDedup.mp h)

/-- The highest slot never falls along a run. -/
theorem highest_le_runs (calls more : List Call) :
    (runs ledger calls).machine.highest ≤ (runs ledger (calls ++ more)).machine.highest := by
  induction more using List.reverseRecOn with
  | nil => simp
  | append_singleton more c ih =>
      rw [← List.append_assoc, runs_concat]
      exact ih.trans (highest_le_process _ _)

theorem length_outcomes (calls : List Call) :
    (runs ledger calls).outcomes.length = calls.length := by
  induction calls using List.reverseRecOn with
  | nil => rfl
  | append_singleton calls c ih => simp [runs_concat, Run.extend, ih]

/-- No later call accepts a shred below the threshold of an earlier state. -/
theorem later_work_ge (calls more : List Call) {o : Outcome}
    (ho : o ∈ (runs ledger (calls ++ more)).outcomes.drop calls.length)
    {w : Slot × FecSetIndex} (hw : w ∈ o.work) :
    (runs ledger calls).machine.highest - slotLookback ≤ w.1 := by
  induction more using List.reverseRecOn with
  | nil =>
      rw [List.append_nil, ← @length_outcomes ledger calls, List.drop_length] at ho
      exact absurd ho List.not_mem_nil
  | append_singleton more c ih =>
      have hlen : calls.length ≤ (runs ledger (calls ++ more)).outcomes.length := by
        simp [length_outcomes]
      rw [← List.append_assoc, runs_concat, Run.extend, List.drop_append_of_le_length hlen] at ho
      rcases List.mem_append.mp ho with ho | ho
      · exact ih ho
      · obtain rfl := List.mem_singleton.mp ho
        have hmono := @highest_le_runs ledger calls more
        exact (Nat.sub_le_sub_right hmono _).trans (work_ge hw)

end Machine

/-! ## Runs with and without pruning -/

theorem SlotMap.mem_iff_of_live {m : SlotMap} {highestSlotSeen slot : Slot}
    (h : highestSlotSeen - slotLookback ≤ slot) :
    slot ∈ m.retained highestSlotSeen ↔ slot ∈ m := by
  have hlive : ¬ (maxProcessingAge < m.size ∧ slot < highestSlotSeen - slotLookback) :=
    fun hold => absurd hold.2 (Nat.not_lt_of_le h)
  rw [Std.ExtTreeMap.mem_iff_isSome_getElem?, SlotMap.getElem?_retained, if_neg hlive,
    ← Std.ExtTreeMap.mem_iff_isSome_getElem?]

/-- The two runs track the same slots above the threshold. -/
theorem mem_iff_mem_noRetain {calls : List Call} {h h₀ : History}
    (hh : runCalls ledger calls = .ok h) (hh₀ : runCallsNoRetain ledger calls = .ok h₀)
    {slot : Slot} (hlive : h.state.highestSlotSeen - slotLookback ≤ slot) :
    slot ∈ h.state.allShreds ↔ slot ∈ h₀.state.allShreds := by
  induction calls using List.reverseRecOn generalizing h h₀ with
  | nil =>
      obtain rfl := Except.ok.inj hh
      obtain rfl := Except.ok.inj hh₀
      exact Iff.rfl
  | append_singleton calls call ih =>
      rcases runCalls_concat.mp hh with ⟨h₁, r, hh₁, hr, rfl⟩
      rcases foldlM_extend_concat.mp hh₀ with ⟨h₂, r₂, hh₂, hr₂, rfl⟩
      have hgood₁ := (sim_of_runCalls hh₁).good
      rcases @reconstructShredsNoRetain_refines ledger h₁.state hgood₁ call with
        ⟨r₁, hr₁, hgood, hview, _, hkeys₁⟩
      rcases runCallsNoRetain_sim ledger calls with ⟨h₃, hh₃, hgood₂, _⟩
      obtain rfl := Except.ok.inj (hh₂.symm.trans hh₃)
      rcases @reconstructShredsNoRetain_refines ledger h₂.state hgood₂ call with
        ⟨r₃, hr₃, _, _, _, hkeys₂⟩
      obtain rfl := Except.ok.inj (hr₂.symm.trans hr₃)
      rcases reconstructShreds_eq hr₁ hgood with ⟨r', hr', hstate, _⟩
      obtain rfl := Except.ok.inj (hr.symm.trans hr')
      simp only [hstate] at hlive ⊢
      have hmono : h₁.state.highestSlotSeen ≤ r₁.state.highestSlotSeen := by
        have hle := @Machine.highest_le_process ledger call.order h₁.state.view
          (call.shreds ledger)
        rw [← Machine.call, ← hview] at hle
        exact hle
      have hlive₁ : h₁.state.highestSlotSeen - slotLookback ≤ slot :=
        (Nat.sub_le_sub_right hmono _).trans hlive
      rw [SlotMap.mem_iff_of_live hlive, hkeys₁, hkeys₂, ih hh₁ hh₂ hlive₁]

/-- What two results of a call agree on. -/
def CallResult.SameOutput (r r' : CallResult) : Prop :=
  r.deshreddedEntries = r'.deshreddedEntries ∧ r.recoveredCount = r'.recoveredCount ∧
    r.state.highestSlotSeen = r'.state.highestSlotSeen

/-- Results that match the same outcomes have the same output. -/
theorem sameOutput_of_matches {results results' : List CallResult} {outcomes : List Outcome}
    (h : List.Forall₂ CallResult.Matches results outcomes)
    (h' : List.Forall₂ CallResult.Matches results' outcomes) :
    List.Forall₂ CallResult.SameOutput results results' := by
  induction h generalizing results' with
  | nil =>
      cases h'
      exact List.Forall₂.nil
  | cons hhead _ ih =>
      cases h' with
      | cons hhead' htail' =>
          refine List.Forall₂.cons ⟨?_, ?_, ?_⟩ (ih htail')
          · exact hhead.emitted.trans hhead'.emitted.symm
          · exact hhead.count.trans hhead'.count.symm
          · exact hhead.highest.trans hhead'.highest.symm

/-- The pruning step of the call removes the slot. -/
def Removes (ledger : Ledger) (call : Call) (state : ProxyState) (slot : Slot) : Prop :=
  ∃ r r₀, reconstructShreds ledger call state = .ok r ∧
    reconstructShredsNoRetain ledger call state = .ok r₀ ∧
    slot ∈ r₀.state.allShreds ∧ slot ∉ r.state.allShreds

/-- A removed slot is below the threshold that the call leaves behind. -/
theorem lt_of_removes {state : ProxyState} (hgood : state.allShreds.Good) {call : Call}
    {slot : Slot} (h : Removes ledger call state slot) :
    ∃ r, reconstructShreds ledger call state = .ok r ∧
      slot < r.state.highestSlotSeen - slotLookback := by
  rcases h with ⟨r, r₀, hr, hr₀, hmem, hnot⟩
  rcases @reconstructShredsNoRetain_refines ledger state hgood call with ⟨r₁, hr₁, hgood₁, _⟩
  obtain rfl := Except.ok.inj (hr₀.symm.trans hr₁)
  rcases reconstructShreds_eq hr₀ hgood₁ with ⟨r', hr', hstate, _⟩
  obtain rfl := Except.ok.inj (hr.symm.trans hr')
  refine ⟨r, hr, ?_⟩
  rw [hstate] at hnot ⊢
  by_contra hge
  exact hnot ((SlotMap.mem_iff_of_live (Nat.le_of_not_lt hge)).mpr hmem)

/-- Runs with and without pruning return the same in every call and agree on all slots that
are not below the threshold; a removed slot is below it and never has a shred accepted
again. -/
theorem pruning_unobservable (ledger : Ledger) (calls : List Call) :
    ∃ h h₀, runCalls ledger calls = .ok h ∧ runCallsNoRetain ledger calls = .ok h₀ ∧
      List.Forall₂ CallResult.SameOutput h.results h₀.results ∧
      h.state.highestSlotSeen = h₀.state.highestSlotSeen ∧
      (∀ slot : Slot, h.state.highestSlotSeen - slotLookback ≤ slot →
        h.state.allShreds[slot]? = h₀.state.allShreds[slot]?) ∧
      ∀ call slot, Removes ledger call h.state slot →
        (∃ r, reconstructShreds ledger call h.state = .ok r ∧
          slot < r.state.highestSlotSeen - slotLookback) ∧
        ∀ more h', runCalls ledger (calls ++ [call] ++ more) = .ok h' →
          ∀ r ∈ h'.results.drop (calls ++ [call]).length, ∀ w ∈ r.slotFecIndexesToIterate,
            w.1 ≠ slot := by
  rcases runCalls_sim ledger calls with ⟨h, hh, hsim, hall⟩
  rcases runCallsNoRetain_sim ledger calls with ⟨h₀, hh₀, hgood₀, hview₀, hall₀⟩
  refine ⟨h, h₀, hh, hh₀, sameOutput_of_matches hall hall₀, ?_, ?_, ?_⟩
  · rw [hsim.highest, ← hview₀]
    rfl
  · intro slot hlive
    have hkeys := mem_iff_mem_noRetain hh hh₀ hlive
    have hentry : h.state.allShreds.entry slot = h₀.state.allShreds.entry slot := by
      refine SlotEntry.view_injective (hsim.good slot).1 (hgood₀ slot).1 ?_
      have hagree := hsim.agree.slots slot hlive
      rw [← hview₀] at hagree
      exact hagree
    exact SlotMap.getElem?_eq_of_entry hkeys hentry
  · intro call slot hrem
    rcases lt_of_removes hsim.good hrem with ⟨r, hr, hlt⟩
    refine ⟨⟨r, hr, hlt⟩, ?_⟩
    intro more h' hh' r' hr' w hw
    rcases runCalls_sim ledger (calls ++ [call] ++ more) with ⟨h₁, hh₁, _, hall₁⟩
    obtain rfl := Except.ok.inj (hh'.symm.trans hh₁)
    rcases exists_matching (List.forall₂_drop (calls ++ [call]).length hall₁) hr' with
      ⟨o, ho, hmatch⟩
    rw [hmatch.work] at hw
    have hge := Machine.later_work_ge _ _ ho hw
    have hhighest := (sim_of_runCalls (runCalls_concat.mpr ⟨h, r, hh, hr, rfl⟩)).highest
    rw [← hhighest] at hge
    exact (hlt.trans_le hge).ne'

/-! ## The size of the slot map -/

/-- A fresh slot accepts every shred. -/
theorem SlotState.exists_ingest_initial (ledger : Ledger) (s : Shred) :
    ∃ σ, SlotState.initial.ingest ledger s = some σ :=
  ⟨_, SlotState.ingest_eq_some_iff.mpr ⟨rfl, rfl, fun _ => rfl, rfl⟩⟩

/-- A shred that is dropped without being stale belongs to a tracked slot: a new slot would have
accepted it. -/
theorem mem_of_dropped {m : SlotMap} {s : Shred} (hadm : s.Admitted)
    (hdrop : ingestShred ledger (m.entry s.slot) s = .ok none) : s.slot ∈ m := by
  by_contra hnew
  rw [SlotMap.entry_of_not_mem hnew] at hdrop
  rcases @ingestShred_refines _ ledger SlotEntry.wf_default s hadm with ⟨o, ho, _, hview⟩
  obtain rfl := Except.ok.inj (hdrop.symm.trans ho)
  rcases SlotState.exists_ingest_initial ledger s with ⟨σ, hσ⟩
  rw [SlotEntry.view_default, hσ] at hview
  contradiction

/-- An entry is created only for a shred that is stale or accepted, so no tracked slot lies
above the highest slot seen. -/
theorem le_highest_of_ingestPacket {b b' : IngestState} {p : Packet}
    (h : ingestPacket ledger b p = .ok b')
    (hle : ∀ slot ∈ b.allShreds, slot ≤ b.highestSlotSeen) :
    ∀ slot ∈ b'.allShreds, slot ≤ b'.highestSlotSeen := by
  have hcreated : ∀ s : Shred, s.slot ≤ b.highestSlotSeen →
      ∀ slot ∈ b.allShreds.insert s.slot (b.allShreds.entry s.slot), slot ≤ b.highestSlotSeen := by
    intro s hs slot hmem
    rcases SlotMap.mem_insert_iff.mp hmem with hmem | rfl
    · exact hle slot hmem
    · exact hs
  rcases ingestPacket_cases h with
    ⟨_, rfl⟩ | ⟨s, hp, ⟨hstale, rfl⟩ | ⟨_, hdrop, rfl⟩ | ⟨e, _, _, rfl⟩⟩
  · exact hle
  · exact hcreated s (Nat.lt_of_lt_of_le hstale (Nat.sub_le _ _)).le
  · exact hcreated s (hle _ (mem_of_dropped (packetShred_admitted hp) hdrop))
  · intro slot hmem
    rw [SlotMap.mem_insert_iff, SlotMap.mem_insert_iff] at hmem
    rcases hmem with (hmem | rfl) | rfl
    · exact (hle slot hmem).trans (le_max_left _ _)
    · exact le_max_right _ _
    · exact le_max_right _ _

/-- The ingest loop tracks no slot above the highest one. -/
theorem le_highest_of_foldlM {packets : List Packet} {b b' : IngestState}
    (h : packets.foldlM (ingestPacket ledger) b = .ok b')
    (hle : ∀ slot ∈ b.allShreds, slot ≤ b.highestSlotSeen) :
    ∀ slot ∈ b'.allShreds, slot ≤ b'.highestSlotSeen := by
  induction packets generalizing b with
  | nil =>
      obtain rfl := Except.ok.inj h
      exact hle
  | cons p packets ih =>
      rw [List.foldlM_cons] at h
      rcases bind_eq_ok_iff.mp h with ⟨b₁, hb₁, hrest⟩
      exact ih hrest (le_highest_of_ingestPacket hb₁ hle)

/-- The bound on the keys through everything a call does before it prunes. -/
theorem le_highest_of_noRetain {state : ProxyState} (hgood : state.allShreds.Good) {call : Call}
    {r : CallResult} (h : reconstructShredsNoRetain ledger call state = .ok r)
    (hle : ∀ slot ∈ state.allShreds, slot ≤ state.highestSlotSeen) :
    ∀ slot ∈ r.state.allShreds, slot ≤ r.state.highestSlotSeen := by
  rcases @reconstructShredsNoRetain_refines ledger state hgood call with
    ⟨r', hr', _, _, _, hkeys⟩
  obtain rfl := Except.ok.inj (h.symm.trans hr')
  simp only [reconstructShredsNoRetain] at h
  rcases bind_eq_ok_iff.mp h with ⟨b, hb, h⟩
  rcases bind_eq_ok_iff.mp h with ⟨p, _, h⟩
  rcases bind_eq_ok_iff.mp h with ⟨d, _, h⟩
  have hhighest : r.state.highestSlotSeen = b.highestSlotSeen := by
    obtain rfl := Except.ok.inj h
    rfl
  intro slot hmem
  rw [hhighest]
  refine le_highest_of_foldlM hb hle slot ?_
  rw [mem_of_foldlM_ingestPacket hb]
  exact (hkeys slot).mp hmem

/-- The slots kept by pruning lie within the lookback. -/
theorem SlotMap.mem_Icc_of_retained {m : SlotMap} {highestSlotSeen slot : Slot}
    (hle : ∀ slot ∈ m, slot ≤ highestSlotSeen) (hsize : maxProcessingAge < m.size)
    (hmem : slot ∈ m.retained highestSlotSeen) :
    highestSlotSeen - slotLookback ≤ slot ∧ slot ≤ highestSlotSeen := by
  rw [Std.ExtTreeMap.mem_iff_isSome_getElem?, SlotMap.getElem?_retained] at hmem
  split at hmem
  · contradiction
  · rename_i hkeep
    refine ⟨Nat.le_of_not_lt fun hlt => hkeep ⟨hsize, hlt⟩, hle slot ?_⟩
    exact Std.ExtTreeMap.mem_iff_isSome_getElem?.mpr hmem

/-- Pruning leaves at most as many slots as may be tracked. -/
theorem SlotMap.size_retained_le {m : SlotMap} {highestSlotSeen : Slot}
    (hle : ∀ slot ∈ m, slot ≤ highestSlotSeen) :
    (m.retained highestSlotSeen).size ≤ maxProcessingAge := by
  by_cases hsize : maxProcessingAge < m.size
  · have hsub : (m.retained highestSlotSeen).keys.toFinset ⊆
        Finset.Icc (highestSlotSeen - slotLookback) highestSlotSeen := by
      intro slot hslot
      rw [List.mem_toFinset, Std.ExtTreeMap.mem_keys] at hslot
      exact Finset.mem_Icc.mpr (SlotMap.mem_Icc_of_retained hle hsize hslot)
    calc (m.retained highestSlotSeen).size
        = (m.retained highestSlotSeen).keys.toFinset.card := by
          rw [List.toFinset_card_of_nodup Std.ExtTreeMap.nodup_keys, Std.ExtTreeMap.length_keys]
      _ ≤ (Finset.Icc (highestSlotSeen - slotLookback) highestSlotSeen).card :=
          Finset.card_le_card hsub
      _ ≤ slotLookback + 1 := by
          rw [Nat.card_Icc]
          dsimp only [Slot] at *
          omega
      _ ≤ maxProcessingAge := by decide
  · unfold SlotMap.retained
    rw [if_neg hsize]
    exact Nat.le_of_not_lt hsize

/-! ## The highest slot seen -/

namespace Feed

/-- The highest slot seen is the highest slot seen before or the slot of an accepted shred. -/
theorem highest_foldl_cases (m : Feed) (l : List Shred) :
    (l.foldl (Feed.ingest ledger) m).highest = m.highest ∨
      ∃ f, ((l.foldl (Feed.ingest ledger) m).highest, f) ∈
        (l.foldl (Feed.ingest ledger) m).work := by
  induction l using List.reverseRecOn with
  | nil => exact Or.inl rfl
  | append_singleton l s ih =>
      rw [List.foldl_append, List.foldl_cons, List.foldl_nil]
      set n := l.foldl (Feed.ingest ledger) m
      unfold Feed.ingest
      split
      · exact ih
      · split
        · exact ih
        · simp only
          rcases max_choice n.highest s.slot with hmax | hmax
          · rw [hmax]
            rcases ih with heq | ⟨f, hf⟩
            · exact Or.inl heq
            · exact Or.inr ⟨f, List.mem_append_left _ hf⟩
          · rw [hmax]
            exact Or.inr ⟨s.fecSetIndex, by simp⟩

/-- The work list names no slot above the highest one. -/
theorem work_le_highest {m : Feed} (h : ∀ w ∈ m.work, w.1 ≤ m.highest) (l : List Shred) :
    ∀ w ∈ (l.foldl (Feed.ingest ledger) m).work,
      w.1 ≤ (l.foldl (Feed.ingest ledger) m).highest := by
  induction l generalizing m with
  | nil => exact h
  | cons s l ih =>
      refine ih ?_
      unfold Feed.ingest
      split
      · exact h
      · split
        · exact h
        · intro w hw
          rcases List.mem_append.mp hw with hw | hw
          · exact (h w hw).trans (le_max_left _ _)
          · obtain rfl := List.mem_singleton.mp hw
            exact le_max_right _ _

end Feed

/-- The slots of the shreds accepted by some calls. -/
def acceptedSlots (work : List (List (Slot × FecSetIndex))) : Set Slot :=
  { slot | ∃ l ∈ work, ∃ f, (slot, f) ∈ l }

/-- The highest slot is the greatest one that took a shred, or the first one. -/
theorem Machine.isGreatest_highest (calls : List Call) :
    IsGreatest (insert 0 (acceptedSlots ((runs ledger calls).outcomes.map Outcome.work)))
      (runs ledger calls).machine.highest := by
  induction calls using List.reverseRecOn with
  | nil =>
      refine ⟨Or.inl rfl, ?_⟩
      rintro slot (rfl | ⟨l, hl, _⟩)
      · exact le_rfl
      · exact absurd hl List.not_mem_nil
  | append_singleton calls c ih =>
      rw [runs_concat]
      have hnew := @Feed.highest_foldl_cases ledger (runs ledger calls).machine.toFeed
        (c.shreds ledger)
      have hmono := @highest_le_process ledger c.order (runs ledger calls).machine
        (c.shreds ledger)
      simp only [Run.extend, List.map_append, List.map_cons, List.map_nil]
      constructor
      · rcases hnew with heq | ⟨f, hf⟩
        · have hsame : ((runs ledger calls).machine.call ledger c).machine.highest =
              (runs ledger calls).machine.highest := heq
          rw [hsame]
          rcases ih.1 with hzero | ⟨l, hl, hf⟩
          · exact Or.inl hzero
          · exact Or.inr ⟨l, List.mem_append_left _ hl, hf⟩
        · refine Or.inr ⟨((runs ledger calls).machine.call ledger c).work, by simp, f, ?_⟩
          exact mem_sortDedup.mpr hf
      · rintro slot (rfl | ⟨l, hl, f, hf⟩)
        · exact Nat.zero_le _
        · rcases List.mem_append.mp hl with hl | hl
          · exact (ih.2 (Or.inr ⟨l, hl, f, hf⟩)).trans hmono
          · obtain rfl := List.mem_singleton.mp hl
            refine Feed.work_le_highest (m := (runs ledger calls).machine.toFeed)
              (fun w hw => absurd hw List.not_mem_nil) _ (slot, f) (mem_sortDedup.mp hf)

/-! ## The bounds on the code -/

/-- Results that match outcomes have their work lists. -/
theorem work_eq_of_matches {results : List CallResult} {outcomes : List Outcome}
    (h : List.Forall₂ CallResult.Matches results outcomes) :
    results.map CallResult.slotFecIndexesToIterate = outcomes.map Outcome.work := by
  induction h with
  | nil => rfl
  | cons hhead _ ih => simp [hhead.work, ih]

/-- Every tracked slot of a reachable state is at most the highest slot seen, and there are
at most as many as may be tracked. -/
theorem bounded_of_runCalls {calls : List Call} {h : History} (hh : runCalls ledger calls = .ok h) :
    h.state.allShreds.size ≤ maxProcessingAge ∧
      ∀ slot ∈ h.state.allShreds, slot ≤ h.state.highestSlotSeen := by
  induction calls using List.reverseRecOn generalizing h with
  | nil =>
      obtain rfl := Except.ok.inj hh
      refine ⟨by simp [History.initial, ProxyState.initial], ?_⟩
      intro slot hmem
      exact absurd hmem Std.ExtTreeMap.not_mem_empty
  | append_singleton calls call ih =>
      rcases runCalls_concat.mp hh with ⟨h₁, r, hh₁, hr, rfl⟩
      have hgood := (sim_of_runCalls hh₁).good
      rcases @reconstructShredsNoRetain_refines ledger h₁.state hgood call with
        ⟨r₁, hr₁, hgood₁, _⟩
      have hle := le_highest_of_noRetain hgood hr₁ (ih hh₁).2
      rcases reconstructShreds_eq hr₁ hgood₁ with ⟨r', hr', hstate, _⟩
      obtain rfl := Except.ok.inj (hr.symm.trans hr')
      simp only [hstate]
      refine ⟨SlotMap.size_retained_le hle, ?_⟩
      intro slot hmem
      refine hle slot ?_
      rw [Std.ExtTreeMap.mem_iff_isSome_getElem?, SlotMap.getElem?_retained] at hmem
      split at hmem
      · contradiction
      · exact Std.ExtTreeMap.mem_iff_isSome_getElem?.mpr hmem

/-- After every call the slot map has at most the permitted number of slots, none of them
above the highest slot seen; the highest slot seen is the greatest slot of an accepted
shred, or zero, and never decreases; and a call that prunes leaves only slots within the
lookback. -/
theorem slot_map_bounded (ledger : Ledger) (calls : List Call) :
    ∃ h, runCalls ledger calls = .ok h ∧ h.state.allShreds.size ≤ maxProcessingAge ∧
      (∀ slot ∈ h.state.allShreds, slot ≤ h.state.highestSlotSeen) ∧
      IsGreatest (insert 0 (acceptedSlots (h.results.map CallResult.slotFecIndexesToIterate)))
        h.state.highestSlotSeen ∧
      (∀ more h', runCalls ledger (calls ++ more) = .ok h' →
        h.state.highestSlotSeen ≤ h'.state.highestSlotSeen) ∧
      ∀ call r r₀, reconstructShreds ledger call h.state = .ok r →
        reconstructShredsNoRetain ledger call h.state = .ok r₀ →
        maxProcessingAge < r₀.state.allShreds.size → ∀ slot ∈ r.state.allShreds,
          r.state.highestSlotSeen - slotLookback ≤ slot ∧ slot ≤ r.state.highestSlotSeen := by
  rcases runCalls_sim ledger calls with ⟨h, hh, hsim, hall⟩
  have hbound := bounded_of_runCalls hh
  refine ⟨h, hh, hbound.1, hbound.2, ?_, ?_, ?_⟩
  · rw [hsim.highest, work_eq_of_matches hall]
    exact Machine.isGreatest_highest calls
  · intro more h' hh'
    rw [hsim.highest, (sim_of_runCalls hh').highest]
    exact Machine.highest_le_runs calls more
  · intro call r r₀ hr hr₀ hsize slot hmem
    rcases @reconstructShredsNoRetain_refines ledger h.state hsim.good call with
      ⟨r₁, hr₁, hgood₁, _⟩
    obtain rfl := Except.ok.inj (hr₀.symm.trans hr₁)
    rcases reconstructShreds_eq hr₀ hgood₁ with ⟨r', hr', hstate, _⟩
    obtain rfl := Except.ok.inj (hr.symm.trans hr')
    rw [hstate] at hmem ⊢
    exact SlotMap.mem_Icc_of_retained (le_highest_of_noRetain hsim.good hr₀ hbound.2) hsize hmem

end ShredstreamProxy
