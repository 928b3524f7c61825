import ShredstreamProxy.Properties.Pruning

/-!
# Rejected packets

A call whose packets are all rejected recovers nothing, emits nothing and sees no new slot.  It may
still change the tracked slots: the entry of a slot is created before the ingest loop finds out that
the shred is stale.  The entries created this way are empty and old, so they disappear again when
their number makes the call prune, together with all other old slots.

Main results:

- Theorem {lit}`ingested_of_rejected`: what the ingest loop makes of rejected packets.
- Theorem {lit}`rejected_no_effect_iff`: when a call with rejected packets changes nothing.
- Theorem {lit}`stale_shred_tracked`: a call that does.
-/

namespace ShredstreamProxy

open Exec KeyedFold

variable {ledger : Ledger}

/-- The ingest loop rejects the packet: it carries no shred, or its shred is stale, or the tracker
of its slot does not take it. -/
def Rejected (ledger : Ledger) (b : IngestState) (p : Packet) : Prop :=
  ∀ s, packetShred ledger p = some s →
    b.stale s.slot ∨ ingestShred ledger (b.allShreds.entry s.slot) s = .ok none

/-- Every packet of the call is rejected at its turn. -/
def RejectsAll (ledger : Ledger) (c : Call) (state : ProxyState) : Prop :=
  ∀ earlier p later b, c.packets = earlier ++ p :: later →
    earlier.foldlM (ingestPacket ledger) state.toIngest = .ok b → Rejected ledger b p

/-- The slots of the stale shreds among some packets. -/
def staleSlots (ledger : Ledger) (highestSlotSeen : Slot) (packets : List Packet) : List Slot :=
  ((packets.filterMap (packetShred ledger)).map Shred.slot).filter
    fun slot => slot < highestSlotSeen - slotLookback

/-! ## The ingest loop -/

/-- Inserting the entry that a slot already has only tracks the slot. -/
theorem SlotMap.getElem?_insert_entry (m : SlotMap) (slot slot' : Slot) :
    (m.insert slot (m.entry slot))[slot']? =
      if slot' = slot then some (m.entry slot') else m[slot']? := by
  rw [Std.ExtTreeMap.getElem?_insert]
  by_cases h : slot' = slot
  · simp [h]
  · simp [h, Ne.symm h]

/-- A tracked slot is found with its entry. -/
theorem SlotMap.getElem?_of_mem {m : SlotMap} {slot : Slot} (h : slot ∈ m) :
    m[slot]? = some (m.entry slot) := by
  rw [Std.ExtTreeMap.mem_iff_isSome_getElem?] at h
  rcases Option.isSome_iff_exists.mp h with ⟨e, he⟩
  rw [SlotMap.entry_of_getElem? he]
  exact he

/-- The maps before and after some rejected packets: the stale slots have got an entry. -/
def SlotMap.Padded (m m' : SlotMap) (slots : List Slot) : Prop :=
  ∀ slot, m'[slot]? = if slot ∈ slots then some (m.entry slot) else m[slot]?

/-- Padding changes no entry. -/
theorem SlotMap.Padded.entry {m m' : SlotMap} {slots : List Slot} (h : m.Padded m' slots)
    (slot : Slot) : m'.entry slot = m.entry slot := by
  unfold SlotMap.entry
  rw [h slot]
  split
  · rfl
  · rfl

/-- Padding tracks the stale slots as well. -/
theorem SlotMap.Padded.mem_iff {m m' : SlotMap} {slots : List Slot} (h : m.Padded m' slots)
    {slot : Slot} : slot ∈ m' ↔ slot ∈ m ∨ slot ∈ slots := by
  rw [Std.ExtTreeMap.mem_iff_isSome_getElem?, Std.ExtTreeMap.mem_iff_isSome_getElem?, h slot]
  split
  · rename_i hmem
    simp [hmem]
  · rename_i hmem
    simp [hmem]

theorem SlotMap.Padded.trans {m m₁ m₂ : SlotMap} {slots slots' : List Slot}
    (h : m.Padded m₁ slots) (h' : m₁.Padded m₂ slots') : m.Padded m₂ (slots ++ slots') := by
  intro slot
  rw [h' slot, h.entry, h slot]
  by_cases hslot : slot ∈ slots
  · simp [hslot]
  · simp [hslot]

/-- A rejected packet creates the entry of a stale slot, and nothing else. -/
theorem ingestPacket_of_rejected {b b' : IngestState} {p : Packet}
    (hstep : ingestPacket ledger b p = .ok b') (hrej : Rejected ledger b p) :
    b'.highestSlotSeen = b.highestSlotSeen ∧
      b'.slotFecIndexesToIterate = b.slotFecIndexesToIterate ∧
      b.allShreds.Padded b'.allShreds (staleSlots ledger b.highestSlotSeen [p]) := by
  rcases ingestPacket_cases hstep with
    ⟨hnone, rfl⟩ | ⟨s, hs, ⟨hstale, rfl⟩ | ⟨hfresh, hdrop, rfl⟩ | ⟨e, hfresh, hin, _⟩⟩
  · have hnil : ∀ highest, staleSlots ledger highest [p] = [] := by
      intro highest
      simp [staleSlots, hnone]
    rw [hnil]
    exact ⟨rfl, rfl, fun slot => rfl⟩
  · have hone : staleSlots ledger b.highestSlotSeen [p] = [s.slot] := by
      unfold IngestState.stale at hstale
      simpa [staleSlots, hs] using hstale
    rw [hone]
    refine ⟨rfl, rfl, fun slot => ?_⟩
    rw [SlotMap.getElem?_insert_entry]
    simp
  · have hnil : staleSlots ledger b.highestSlotSeen [p] = [] := by
      unfold IngestState.stale at hfresh
      simpa [staleSlots, hs] using hfresh
    have hmem := mem_of_dropped (packetShred_admitted hs) hdrop
    rw [hnil]
    refine ⟨rfl, rfl, fun slot => ?_⟩
    rw [SlotMap.getElem?_insert_entry]
    split
    · rename_i heq
      rw [heq, SlotMap.getElem?_of_mem hmem]
      simp
    · simp
  · -- the shred was accepted
    rcases hrej s hs with hstale | hdrop
    · exact absurd hstale hfresh
    · exact absurd (hin.symm.trans hdrop) (by simp)

/-- Rejected packets create the entries of stale slots, and nothing else. -/
theorem ingested_of_rejected {state : ProxyState} {packets : List Packet} {b : IngestState}
    (hb : packets.foldlM (ingestPacket ledger) state.toIngest = .ok b)
    (hrej : ∀ earlier p later b', packets = earlier ++ p :: later →
      earlier.foldlM (ingestPacket ledger) state.toIngest = .ok b' → Rejected ledger b' p) :
    b.highestSlotSeen = state.highestSlotSeen ∧ b.slotFecIndexesToIterate = [] ∧
      state.allShreds.Padded b.allShreds (staleSlots ledger state.highestSlotSeen packets) := by
  induction packets using List.reverseRecOn generalizing b with
  | nil =>
      obtain rfl := Except.ok.inj hb
      exact ⟨rfl, rfl, fun slot => rfl⟩
  | append_singleton packets p ih =>
      rw [List.foldlM_append] at hb
      rcases bind_eq_ok_iff.mp hb with ⟨b₁, hb₁, hlast⟩
      rw [List.foldlM_cons] at hlast
      rcases bind_eq_ok_iff.mp hlast with ⟨b₂, hb₂, heq⟩
      obtain rfl := Except.ok.inj heq
      rcases ih hb₁ fun earlier q later b' hsplit =>
        hrej earlier q (later ++ [p]) b' (by simp [hsplit]) with ⟨hhighest, hwork, hpadded⟩
      rcases ingestPacket_of_rejected hb₂ (hrej packets p [] b₁ rfl hb₁) with
        ⟨hhighest', hwork', hpadded'⟩
      have hslots : staleSlots ledger state.highestSlotSeen (packets ++ [p]) =
          staleSlots ledger state.highestSlotSeen packets ++
            staleSlots ledger state.highestSlotSeen [p] := by
        simp [staleSlots]
      rw [hhighest] at hpadded'
      rw [hslots]
      exact ⟨hhighest'.trans hhighest, hwork'.trans hwork, hpadded.trans hpadded'⟩

/-! ## Whole calls -/

/-- A call with rejected packets recovers nothing, emits nothing and sees no new slot, and leaves
the padded map as far as pruning keeps it. -/
theorem reconstructShreds_of_rejected {state : ProxyState} (hgood : state.allShreds.Good) {c : Call}
    (hrej : RejectsAll ledger c state) :
    ∃ r m, reconstructShreds ledger c state = .ok r ∧
      r.state = ⟨m.retained state.highestSlotSeen, state.highestSlotSeen⟩ ∧
      state.allShreds.Padded m (staleSlots ledger state.highestSlotSeen c.packets) ∧
      r.deshreddedEntries = [] ∧ r.recoveredCount = 0 := by
  have hstart : state.toIngest.Refines state.view.toFeed := ⟨hgood, rfl, rfl, rfl⟩
  rcases @foldlM_ingestPacket_refines ledger _ _ hstart c.packets with ⟨b, hb, hR⟩
  rcases ingested_of_rejected hb hrej with ⟨hhighest, hwork, hpadded⟩
  have hempty : sortDedup lexLe b.slotFecIndexesToIterate = [] := by
    rw [hwork]
    rfl
  have hcall : reconstructShredsNoRetain ledger c state = .ok
      { state := ⟨b.allShreds, b.highestSlotSeen⟩
        slotFecIndexesToIterate := []
        deshreddedEntries := []
        recoveredCount := 0
        metrics := { ServiceMetrics.zero with recoveredCount := 0 }
        missedFecSets := [] } := by
    simp only [reconstructShredsNoRetain, hb, ok_bind, hempty]
    rfl
  rcases reconstructShreds_eq hcall hR.good with ⟨r, hr, hstate, _, hpushed, hcount⟩
  refine ⟨r, b.allShreds, hr, ?_, hpadded, hpushed, hcount⟩
  rw [hstate, hhighest]

/-- The call leaves the tracked slots and the highest slot seen as they were, emits nothing and
returns zero. -/
def HasNoEffect (ledger : Ledger) (c : Call) (state : ProxyState) : Prop :=
  ∃ r, reconstructShreds ledger c state = .ok r ∧ r.state = state ∧ r.deshreddedEntries = [] ∧
    r.recoveredCount = 0

/-- The size of a padded map counts the tracked and the stale slots once. -/
theorem SlotMap.Padded.size_eq {m m' : SlotMap} {slots : List Slot} (h : m.Padded m' slots) :
    m'.size = (m.keys ++ slots).toFinset.card := by
  have hkeys : m'.keys.toFinset = (m.keys ++ slots).toFinset := by
    ext slot
    rw [List.mem_toFinset, List.mem_toFinset, List.mem_append, Std.ExtTreeMap.mem_keys,
      Std.ExtTreeMap.mem_keys]
    exact h.mem_iff
  rw [← hkeys, List.toFinset_card_of_nodup Std.ExtTreeMap.nodup_keys, Std.ExtTreeMap.length_keys]

/-- Padding changes nothing exactly when the stale slots are already tracked. -/
theorem SlotMap.Padded.eq_iff {m m' : SlotMap} {slots : List Slot} (h : m.Padded m' slots) :
    m' = m ↔ ∀ slot ∈ slots, slot ∈ m := by
  constructor
  · intro heq slot hslot
    rw [← heq]
    exact h.mem_iff.mpr (Or.inr hslot)
  · intro hall
    apply Std.ExtTreeMap.ext_getElem?
    intro slot
    rw [h slot]
    split
    · rename_i hslot
      exact (SlotMap.getElem?_of_mem (hall slot hslot)).symm
    · rfl

/-- If a call with rejected packets prunes, what is left are the slots that are not old. -/
theorem SlotMap.Padded.filter_eq_iff {m m' : SlotMap} {highestSlotSeen : Slot} {slots : List Slot}
    (h : m.Padded m' slots) (hslots : ∀ slot ∈ slots, slot < highestSlotSeen - slotLookback)
    (hsize : maxProcessingAge < m'.size) :
    m'.retained highestSlotSeen = m ↔ ∀ slot ∈ m, highestSlotSeen - slotLookback ≤ slot := by
  constructor
  · intro heq slot hmem
    rw [← heq, Std.ExtTreeMap.mem_iff_isSome_getElem?, SlotMap.getElem?_retained] at hmem
    by_contra hlt
    rw [if_pos ⟨hsize, Nat.lt_of_not_le hlt⟩] at hmem
    contradiction
  · intro hnew
    apply Std.ExtTreeMap.ext_getElem?
    intro slot
    rw [SlotMap.getElem?_retained]
    by_cases hlt : slot < highestSlotSeen - slotLookback
    · have hnot : slot ∉ m := fun hmem => absurd hlt (Nat.not_lt_of_le (hnew slot hmem))
      rw [if_pos ⟨hsize, hlt⟩, Std.ExtTreeMap.getElem?_eq_none hnot]
    · have hnot : slot ∉ slots := fun hmem => hlt (hslots slot hmem)
      rw [if_neg fun hold => hlt hold.2, h slot, if_neg hnot]

/-- In every reachable state, a call whose packets are all rejected changes nothing if and only if
the slots of all stale packets are tracked already, or else the new ones are so many that the call
prunes, and none of the tracked slots is old. -/
theorem rejected_no_effect_iff (ledger : Ledger) (calls : List Call) (h : History)
    (hh : runCalls ledger calls = .ok h) (c : Call) (hrej : RejectsAll ledger c h.state) :
    HasNoEffect ledger c h.state ↔
      (∀ slot ∈ staleSlots ledger h.state.highestSlotSeen c.packets, slot ∈ h.state.allShreds) ∨
        (maxProcessingAge < (h.state.allShreds.keys ++
            staleSlots ledger h.state.highestSlotSeen c.packets).toFinset.card ∧
          ∀ slot ∈ h.state.allShreds, h.state.highestSlotSeen - slotLookback ≤ slot) := by
  rcases reconstructShreds_of_rejected (sim_of_runCalls hh).good hrej with
    ⟨r, m, hr, hstate, hpadded, hpushed, hcount⟩
  have hbound := (bounded_of_runCalls hh).1
  have hold : ∀ slot ∈ staleSlots ledger h.state.highestSlotSeen c.packets,
      slot < h.state.highestSlotSeen - slotLookback := by
    intro slot hslot
    simpa using (List.mem_filter.mp hslot).2
  have heffect : HasNoEffect ledger c h.state ↔
      m.retained h.state.highestSlotSeen = h.state.allShreds := by
    constructor
    · rintro ⟨r', hr', hsame, _⟩
      obtain rfl := Except.ok.inj (hr.symm.trans hr')
      rw [hstate] at hsame
      exact congrArg ProxyState.allShreds hsame
    · intro hsame
      rw [hsame] at hstate
      exact ⟨r, hr, hstate, hpushed, hcount⟩
  rw [heffect, ← hpadded.size_eq]
  by_cases hsize : maxProcessingAge < m.size
  · rw [hpadded.filter_eq_iff hold hsize]
    constructor
    · exact fun hnew => Or.inr ⟨hsize, hnew⟩
    · rintro (hall | hnew)
      · -- then nothing was added, and the map is too small to prune
        rw [hpadded.eq_iff.mpr hall] at hsize
        exact absurd hsize (Nat.not_lt_of_le hbound)
      · exact hnew.2
  · have hkept : m.retained h.state.highestSlotSeen = m := if_neg hsize
    rw [hkept, hpadded.eq_iff]
    constructor
    · exact Or.inl
    · rintro (hall | hnew)
      · exact hall
      · exact absurd hnew.1 hsize

/-- Every tracked slot is the slot of a shred of the run. -/
theorem exists_shred_of_mem {calls : List Call} {h : History} (hh : runCalls ledger calls = .ok h)
    {slot : Slot} (hmem : slot ∈ h.state.allShreds) :
    ∃ c ∈ calls, ∃ s ∈ c.shreds ledger, s.slot = slot := by
  induction calls using List.reverseRecOn generalizing h with
  | nil =>
      obtain rfl := Except.ok.inj hh
      exact absurd hmem Std.ExtTreeMap.not_mem_empty
  | append_singleton calls c ih =>
      rcases runCalls_concat.mp hh with ⟨h₁, r, hh₁, hr, rfl⟩
      rcases @reconstructShredsNoRetain_refines ledger _ (sim_of_runCalls hh₁).good c with
        ⟨r₀, hr₀, hgood₀, _, _, hkeys⟩
      rcases reconstructShreds_eq hr₀ hgood₀ with ⟨r', hr', hstate, _⟩
      obtain rfl := Except.ok.inj (hr.symm.trans hr')
      have hmem₀ : slot ∈ r₀.state.allShreds := by
        simp only [hstate] at hmem
        rw [Std.ExtTreeMap.mem_iff_isSome_getElem?, SlotMap.getElem?_retained] at hmem
        split at hmem
        · contradiction
        · exact Std.ExtTreeMap.mem_iff_isSome_getElem?.mpr hmem
      rcases (hkeys slot).mp hmem₀ with hold | ⟨s, hs, hslot⟩
      · rcases ih hh₁ hold with ⟨c', hc', hrest⟩
        exact ⟨c', List.mem_append_left _ hc', hrest⟩
      · exact ⟨c, by simp, s, hs, hslot⟩

/-- A call with one packet rejects all if it rejects this one. -/
theorem rejectsAll_singleton {state : ProxyState} {c : Call} {p : Packet} (hc : c.packets = [p])
    (hp : Rejected ledger state.toIngest p) : RejectsAll ledger c state := by
  intro earlier q later b hsplit hb
  rw [hc] at hsplit
  rcases earlier with _ | ⟨x, earlier⟩
  · obtain ⟨rfl, _⟩ := List.cons.inj hsplit
    obtain rfl := Except.ok.inj hb
    exact hp
  · simp at hsplit

/-- A shred comes twice: the second time it is rejected without a trace. -/
theorem rejected_no_effect_iff_sample :
    ∃ h, runCalls Ledger.wide [Sample.call [4]] = .ok h ∧
      HasNoEffect Ledger.wide (Sample.call [4]) h.state := by
  rcases runCalls_sim Ledger.wide [Sample.call [4]] with ⟨h, hh, hsim, _⟩
  refine ⟨h, hh, ?_⟩
  have hview : h.state.allShreds.view 60 =
      (Machine.runs Ledger.wide [Sample.call [4]]).machine.slots 60 := by
    rcases hsim.slots 60 with heq | ⟨hold, _⟩
    · exact heq
    · exact absurd hold (by decide)
  have hrej : RejectsAll Ledger.wide (Sample.call [4]) h.state := by
    refine rejectsAll_singleton rfl ?_
    intro s hs
    obtain rfl : Sample.data 60 0 0 true = s := Option.some.inj hs
    rcases @ingestShred_refines _ Ledger.wide (hsim.good 60).1 (Sample.data 60 0 0 true) (by decide)
      with ⟨o, ho, _, hin⟩
    have hnone : o = none := by
      have hdropped : (h.state.allShreds.view 60).ingest Ledger.wide (Sample.data 60 0 0 true) =
          none := by
        rw [hview, SlotState.ingest_eq_none_iff]
        exact fun haccepts => absurd haccepts.1 (by decide)
      exact Option.map_eq_none_iff.mp (hin.trans hdropped)
    rw [hnone] at ho
    exact Or.inr ho
  refine (rejected_no_effect_iff Ledger.wide [Sample.call [4]] h hh (Sample.call [4]) hrej).mpr
    (Or.inl ?_)
  intro slot hslot
  have hhighest : h.state.highestSlotSeen = 60 := by
    rw [hsim.highest]
    decide
  rw [hhighest] at hslot
  exact absurd (show slot ∈ [] from hslot) List.not_mem_nil

/-- A stale shred is rejected, but its slot is tracked from then on. -/
theorem stale_shred_tracked :
    ∃ h, runCalls Ledger.wide [Sample.call [4]] = .ok h ∧
      RejectsAll Ledger.wide (Sample.call [0]) h.state ∧
      ¬ HasNoEffect Ledger.wide (Sample.call [0]) h.state := by
  rcases runCalls_sim Ledger.wide [Sample.call [4]] with ⟨h, hh, hsim, _⟩
  have hhighest : h.state.highestSlotSeen = 60 := by
    rw [hsim.highest]
    decide
  have hrej : RejectsAll Ledger.wide (Sample.call [0]) h.state := by
    refine rejectsAll_singleton rfl ?_
    intro s hs
    obtain rfl : Sample.data 3 0 0 false = s := Option.some.inj hs
    refine Or.inl ?_
    unfold IngestState.stale ProxyState.toIngest
    rw [hhighest]
    dsimp only
    decide
  have hkeys : ∀ slot ∈ h.state.allShreds, slot = 60 := by
    intro slot hmem
    rcases exists_shred_of_mem hh hmem with ⟨c, hc, s, hs, rfl⟩
    obtain rfl := List.mem_singleton.mp hc
    exact congrArg Shred.slot (List.mem_singleton.mp (show s ∈ [Sample.data 60 0 0 true] from hs))
  refine ⟨h, hh, hrej, ?_⟩
  rintro ⟨r', hr', hsame, _⟩
  rcases reconstructShreds_of_rejected (sim_of_runCalls hh).good hrej with
    ⟨r, m, hr, hstate, hpadded, _⟩
  obtain rfl := Except.ok.inj (hr.symm.trans hr')
  have hslots : staleSlots Ledger.wide h.state.highestSlotSeen (Sample.call [0]).packets = [3] := by
    rw [hhighest]
    decide
  rw [hslots] at hpadded
  have hsize : ¬ maxProcessingAge < m.size := by
    have hsub : (h.state.allShreds.keys ++ [3]).toFinset ⊆ {60, 3} := by
      intro slot hslot
      rw [List.mem_toFinset, List.mem_append, Std.ExtTreeMap.mem_keys] at hslot
      rcases hslot with hmem | hmem
      · simp [hkeys slot hmem]
      · simp [List.mem_singleton.mp hmem]
    have hcard := Finset.card_le_card hsub
    rw [← hpadded.size_eq] at hcard
    exact Nat.not_lt_of_le (hcard.trans (by decide))
  have hkept : m.retained h.state.highestSlotSeen = m := if_neg hsize
  have heq : m = h.state.allShreds := by
    rw [hstate, hkept] at hsame
    exact congrArg ProxyState.allShreds hsame
  have htracked := hpadded.eq_iff.mp heq 3 (by simp)
  exact absurd (hkeys 3 htracked) (by decide)

end ShredstreamProxy
