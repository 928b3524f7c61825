import ShredstreamProxy.Slot.Attempt
import ShredstreamProxy.Properties.Representation

/-!
# Dropped data shreds

The ingest loop drops a data shred when its erasure set is flagged as recovered.  The flag
is set after any recovery that brought something new, and for every set met by an
emitted range, so it does not always mean that the set is complete.  It does in every run
whose recoveries return all that is missing as soon as they return anything new, and whose
emitted ranges meet only sets that are known as a whole.

Main results:

- Theorems {lit}`SlotState.FlaggedComplete.recover` and
  {lit}`SlotState.FlaggedComplete.deshred`: what each way of setting the flag must satisfy to
  keep flagged sets complete.
- Theorem {lit}`dropped_only_when_known`: under these conditions no missing data shred is
  dropped.
- Theorem {lit}`missing_shred_dropped`: a run in which one is.
-/

namespace ShredstreamProxy

open Exec KeyedFold

variable {ledger : Ledger} {slot : Slot}

/-! ## Flagged sets -/

namespace SlotState

/-- The data positions of every flagged set are known, where `M f i` says that position `i`
belongs to set `f`. -/
def FlaggedComplete (M : FecSetIndex → Nat → Prop) (σ : SlotState) : Prop :=
  ∀ f, σ.recovered f = true → ∀ i, M f i → ∃ s, σ.dataShreds i = some s

namespace FlaggedComplete

variable {M : FecSetIndex → Nat → Prop} {σ : SlotState}

theorem initial (M : FecSetIndex → Nat → Prop) : FlaggedComplete M SlotState.initial :=
  fun _ hf => absurd hf (by simp [SlotState.initial])

/-- Taking a shred flags no set. -/
theorem ingest (h : FlaggedComplete M σ) {s : Shred} {σ' : SlotState}
    (hin : σ.ingest ledger s = some σ') : FlaggedComplete M σ' := by
  intro f hf i hi
  rw [(ingest_eq_some_iff.mp hin).2.2.2] at hf
  rcases h f hf i hi with ⟨t, ht⟩
  exact ⟨t, stored_mono_ingest hin ht⟩

/-- A recovery attempt keeps flagged sets complete if its answer contains all that is
missing of the set as soon as it contains anything new. -/
theorem recover (h : FlaggedComplete M σ) (hinv : σ.Inv slot) (order : IterOrder)
    {f : FecSetIndex}
    (hall : ∀ items s, σ.callsRecover order f = true →
      σ.recoverAnswer ledger order f = some items → some s ∈ items → σ.IsNew s → ∀ i, M f i →
        (∃ t, σ.dataShreds i = some t) ∨
          ∃ t, some t ∈ items ∧ t.shredType = .data ∧ t.index = i) :
    FlaggedComplete M (σ.recover ledger order f).1 := by
  have hspec := recover_spec ledger order σ f
  intro g hg i hi
  by_cases hold : σ.recovered g = true
  · rcases h g hold i hi with ⟨s, hs⟩
    exact ⟨s, hspec.mono i s hs⟩
  · -- the attempt itself flagged the set
    have hnew : 0 < (σ.recover ledger order f).2 ∧ g = f := by
      rw [hspec.recovered_eq] at hg
      split at hg
      · rename_i hpos
        refine ⟨hpos, ?_⟩
        by_contra hne
        rw [Function.update_of_ne hne] at hg
        exact hold hg
      · exact absurd hg hold
    obtain ⟨hpos, rfl⟩ := hnew
    rcases hspec.counted hpos with ⟨items, hcalls, hanswer, s, hs, hnew⟩
    rcases hall items s hcalls hanswer hs hnew i hi with ⟨t, ht⟩ | ⟨t, ht, htype, hindex⟩
    · exact ⟨t, hspec.mono i t ht⟩
    · have hset := (hinv.answer_admitted hcalls hanswer ht).2.2
      have hknown := hspec.covers items hcalls hanswer t ht htype
        (by rw [hset]; simpa using hold)
      rw [hindex] at hknown
      exact Option.isSome_iff_exists.mp hknown

/-- A deshred attempt keeps flagged sets complete if every set that the emitted range meets
is known as a whole. -/
theorem deshred (h : FlaggedComplete M σ) (f : FecSetIndex)
    (hwhole : ∀ a e u decoded, Segment.segmentAt σ.line maxDataShredsPerSlot f = some (a, e, u) →
      σ.decode ledger a e = some decoded → ∀ s ∈ σ.shredsIn a e, ∀ i, M s.fecSetIndex i →
        ∃ t, σ.dataShreds i = some t) :
    FlaggedComplete M (σ.deshred ledger slot f).1 := by
  rcases deshred_cases ledger slot σ f with
    heq | ⟨a, e, u, entries, payload, hseg, hdecode, heq⟩
  · rw [heq]
    exact h
  · rw [heq]
    intro g hg i hi
    rw [mark_recovered_iff] at hg
    rcases hg with hg | ⟨j, s, h₁, h₂, hs, rfl⟩
    · exact h g hg i hi
    · have hmem : s ∈ σ.shredsIn a e := mem_shredsIn.mpr ⟨j, h₁, h₂, hs⟩
      have hfound := (Segment.segmentAt_eq_some_iff _ _ _ _ _).mpr hseg
      exact hwhole a e u _ hfound hdecode s hmem i hi

end FlaggedComplete

end SlotState

/-! ## The code -/

/-- Whenever the ingest loop drops a data shred that is not stale, its position is known. -/
def DropsOnlyKnown (ledger : Ledger) (calls : List Call) : Prop :=
  ∀ b p d, Turn ledger calls b p → packetShred ledger p = some (.shredData d) →
    ¬ b.stale d.commonHeader.slot →
    ingestShred ledger (b.allShreds.entry d.commonHeader.slot) (.shredData d) = .ok none →
    ∃ s, (b.allShreds.entry d.commonHeader.slot).stateTracker.dataShreds[d.commonHeader.index]? =
      some (some s)

/-- The attempts of a run treat erasure sets as a whole, where `M slot f i` says that data
position `i` belongs to set `f` of the slot: it does for every data shred that a packet
carries; a recovery that returns a new shred returns all data shreds that are missing; and a
range that is decoded meets only sets whose data shreds are all known. -/
structure TreatsWholeSets (ledger : Ledger) (calls : List Call)
    (M : Slot → FecSetIndex → Nat → Prop) : Prop where
  packets : ∀ c ∈ calls, ∀ s ∈ c.shreds ledger, s.shredType = .data →
    M s.slot s.fecSetIndex s.index
  recover : ∀ order m slot f items s, RecoverTurn ledger calls order m (slot, f) →
    (m.view slot).callsRecover order f = true →
    (m.view slot).recoverAnswer ledger order f = some items → some s ∈ items →
    (m.view slot).IsNew s → ∀ i, M slot f i → (∃ t, (m.view slot).dataShreds i = some t) ∨
      ∃ t, some t ∈ items ∧ t.shredType = .data ∧ t.index = i
  deshred : ∀ m slot f a e u decoded, DeshredTurn ledger calls m (slot, f) →
    Segment.segmentAt (m.view slot).line maxDataShredsPerSlot f = some (a, e, u) →
    (m.view slot).decode ledger a e = some decoded → ∀ s ∈ (m.view slot).shredsIn a e,
    ∀ i, M slot s.fecSetIndex i → ∃ t, (m.view slot).dataShreds i = some t

/-- With whole sets treated, flagged sets stay complete. -/
theorem TreatsWholeSets.viewInvariant {calls : List Call} {M : Slot → FecSetIndex → Nat → Prop}
    (h : TreatsWholeSets ledger calls M) :
    ViewInvariant ledger calls fun slot σ => σ.FlaggedComplete (M slot) where
  initial := fun slot => SlotState.FlaggedComplete.initial (M slot)
  ingest := fun σ s σ' _ hσ hin => hσ.ingest hin
  recover := by
    rintro order m ⟨slot, f⟩ hturn hgood hσ
    refine hσ.recover (hgood slot).2 order ?_
    exact fun items s hcalls hanswer hs hnew =>
      h.recover order m slot f items s hturn hcalls hanswer hs hnew
  deshred := by
    rintro m ⟨slot, f⟩ hturn _ hσ
    exact hσ.deshred f fun a e u decoded => h.deshred m slot f a e u decoded hturn

/-- In a run whose attempts treat erasure sets as a whole, a data shred that is not stale is
dropped only if its position is known, and a set is flagged as recovered only if all of its
data positions are known. -/
theorem dropped_only_when_known (ledger : Ledger) (calls : List Call)
    (M : Slot → FecSetIndex → Nat → Prop) (hM : TreatsWholeSets ledger calls M) :
    DropsOnlyKnown ledger calls ∧
      ∀ h, runCalls ledger calls = .ok h → ∀ (slot : Slot) (entry : SlotEntry),
        h.state.allShreds[slot]? = some entry → ∀ f : FecSetIndex,
        entry.stateTracker.alreadyRecoveredFecSets[f]? = some true → ∀ i, M slot f i →
          ∃ s, entry.stateTracker.dataShreds[i]? = some (some s) := by
  constructor
  · intro b p d hturn hp hfresh hdrop
    rcases hM.viewInvariant.of_turn hturn with ⟨hgood, hcomplete⟩
    have hset : M d.commonHeader.slot d.commonHeader.fecSetIndex d.commonHeader.index := by
      rcases hturn with ⟨before, c, after, _, earlier, later, rfl, _, hpackets, _⟩
      have hs : .shredData d ∈ c.shreds ledger :=
        List.mem_filterMap.mpr ⟨p, by simp [hpackets], hp⟩
      exact hM.packets c (by simp) _ hs rfl
    rcases @ingestShred_refines _ ledger (hgood d.commonHeader.slot).1 _ (packetShred_admitted hp)
      with ⟨o, ho, _, hview⟩
    obtain rfl := Except.ok.inj (hdrop.symm.trans ho)
    have hnot := SlotState.ingest_eq_none_iff.mp hview.symm
    have hknown : ∃ s, (b.allShreds.view d.commonHeader.slot).dataShreds d.commonHeader.index =
        some s := by
      by_contra hnone
      refine hnot ⟨?_, ?_, ?_⟩
      · rw [← Bool.not_eq_true]
        intro hrec
        exact hnone (hcomplete d.commonHeader.slot _ hrec _ hset)
      · rw [← Bool.not_eq_true]
        intro hdes
        rcases (hgood d.commonHeader.slot).2.deshredded _ hdes with ⟨s, hs, _⟩
        exact hnone ⟨s, hs⟩
      · intro _
        rw [Option.eq_none_iff_forall_ne_some]
        exact fun s hs => hnone ⟨s, hs⟩
    rcases hknown with ⟨s, hs⟩
    exact ⟨s, getElem?_join_eq_some.mp hs⟩
  · intro h hh slot entry hentry f hf i hi
    have hview : h.state.allShreds.view slot = entry.view := by
      unfold SlotMap.view
      rw [SlotMap.entry_of_getElem? hentry]
    have hcomplete := hM.viewInvariant.of_runCalls hh slot
    rw [hview] at hcomplete
    rcases hcomplete f (getElem?_getD_eq_true.mpr hf) i hi with ⟨s, hs⟩
    exact ⟨s, getElem?_join_eq_some.mp hs⟩

/-- A run in which a coding shred recovers the rest of its set, the set is emitted, and a
data shred of it arrives late. -/
theorem dropped_only_when_known_sample :
    DropsOnlyKnown Ledger.sample [Sample.call [1, 3], Sample.call [2]] := by
  have hsplit : ∀ {before : List Call} {c : Call} {after : List Call},
      [Sample.call [1, 3], Sample.call [2]] = before ++ c :: after →
      (before = [] ∧ c = Sample.call [1, 3]) ∨
        (before = [Sample.call [1, 3]] ∧ c = Sample.call [2]) := by
    intro before c after h
    rcases before with _ | ⟨_, _ | ⟨_, _⟩⟩ <;> simp_all
  have hnil : ∀ {pre post : List FecSetIndex} {f : FecSetIndex}, [1] = pre ++ f :: post →
      pre = [] := by
    intro pre post f h
    rcases pre with _ | ⟨_, _ | ⟨_, _⟩⟩ <;> simp_all
  have hlate : ((Machine.runs Ledger.sample [Sample.call [1, 3]]).machine.slots 0).touched
      Ledger.sample ((Machine.runs Ledger.sample [Sample.call [1, 3]]).machine.offered
        Ledger.sample ((Sample.call [2]).shreds Ledger.sample) 0) = [] := by
    decide +kernel
  refine (dropped_only_when_known Ledger.sample [Sample.call [1, 3], Sample.call [2]]
    (fun slot f i => slot = 0 ∧ f = 1 ∧ (i = 1 ∨ i = 2)) ⟨by decide, ?_, ?_⟩).1
  · rintro order m slot f items s hturn _ hanswer _ _ i ⟨rfl, rfl, hi⟩
    rcases hturn.exists_run with ⟨before, c, after, pre, post, hcalls, rfl, ⟨htouched, hview⟩, _⟩
    rcases hsplit hcalls with ⟨rfl, rfl⟩ | ⟨rfl, rfl⟩
    · obtain rfl := hnil htouched
      have hitems : (m.view 0).recoverAnswer Ledger.sample IterOrder.insertion 1 =
          some [some (Sample.data 0 2 1 true)] := by
        rw [hview]
        decide +kernel
      obtain rfl := Option.some.inj (hitems.symm.trans hanswer)
      rcases hi with rfl | rfl
      · rw [hview]
        exact Or.inl ⟨_, rfl⟩
      · exact Or.inr ⟨_, List.mem_cons_self, rfl, rfl⟩
    · exact absurd (hlate.symm.trans htouched) (by simp)
  · rintro m slot f a e u decoded hturn _ _ s _ i ⟨rfl, _, hi⟩
    rcases hturn.exists_run with ⟨before, c, after, pre, post, hcalls, ⟨htouched, hview⟩, _⟩
    rcases hsplit hcalls with ⟨rfl, rfl⟩ | ⟨rfl, rfl⟩
    · obtain rfl := hnil htouched
      rw [hview, ← Option.isSome_iff_exists]
      dsimp only
      rcases hi with rfl | rfl
      · decide +kernel
      · decide +kernel
    · exact absurd (hlate.symm.trans htouched) (by simp)

/-- A shred that completes a segment inside its set: the set is flagged when the segment is
emitted, and the other data shred of the set is dropped. -/
theorem missing_shred_dropped :
    ¬ DropsOnlyKnown Ledger.sample [Sample.call [5], Sample.call [6]] := by
  intro hdrops
  rcases runCalls_sim Ledger.sample [Sample.call [5]] with ⟨h, hh, hsim, _⟩
  have hview : h.state.allShreds.view 2 =
      (Machine.runs Ledger.sample [Sample.call [5]]).machine.slots 2 := by
    rcases hsim.slots 2 with heq | ⟨hold, _⟩
    · exact heq
    · exact absurd hold (by decide)
  have hturn : Turn Ledger.sample [Sample.call [5], Sample.call [6]] h.state.toIngest
      ⟨false, 1, [6]⟩ :=
    ⟨[Sample.call [5]], Sample.call [6], [], h, [], [], rfl, hh, rfl, rfl⟩
  have hfresh : ¬ h.state.toIngest.stale 2 := by
    unfold IngestState.stale ProxyState.toIngest
    rw [hsim.highest]
    dsimp only
    decide
  rcases @ingestShred_refines _ Ledger.sample (hsim.good 2).1 (Sample.data 2 1 0 true) (by decide)
    with ⟨o, ho, _, hin⟩
  have hnone : o = none := by
    have hdropped : (h.state.allShreds.view 2).ingest Ledger.sample (Sample.data 2 1 0 true) =
        none := by
      rw [hview, SlotState.ingest_eq_none_iff]
      exact fun haccepts => absurd haccepts.1 (by decide)
    exact Option.map_eq_none_iff.mp (hin.trans hdropped)
  rw [hnone] at ho
  rcases hdrops _ _ _ hturn rfl hfresh ho with ⟨s, hs⟩
  have hknown : (h.state.allShreds.view 2).dataShreds 1 = some s := getElem?_join_eq_some.mpr hs
  have hmissing : ((Machine.runs Ledger.sample [Sample.call [5]]).machine.slots 2).dataShreds 1 =
      none := by decide
  rw [hview, hmissing] at hknown
  exact Option.some_ne_none s hknown.symm

end ShredstreamProxy
