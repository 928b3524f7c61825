import ShredstreamProxy.Block.Basic
import ShredstreamProxy.Properties.Emission
import ShredstreamProxy.Properties.Representation

/-!
# Every complete segment is emitted exactly once

For a slot that carries the shreds of one honestly built block, only whole segments are
ever emitted: the scans never cross a completing shred, and a guess that starts inside a
segment is rejected by the entry decoder.  A segment becomes complete in a call that
touches one of its erasure sets, and the attempt at that set finds it.

Main results:

- Theorem {lit}`Block.isSegment_of_decode`: what a successful attempt emits is a segment.
- Theorem {lit}`Block.deshred_of_complete`: an attempt inside a complete segment succeeds.
- Theorem {lit}`Block.process_complete`: after every call the complete segments are emitted.
- Theorem {lit}`complete_segments_emitted_once`: the statement about the code.
-/

namespace ShredstreamProxy

open Exec KeyedFold

namespace Block

variable {B : Block} {ledger : Ledger}

/-- What is assumed of the ledger library for the shreds of a block. -/
structure Honest (ledger : Ledger) (B : Block) : Prop where
  /-- Recovery returns genuine shreds. -/
  recover_genuine : ∀ l r s, (∀ t ∈ l, B.Genuine ledger t) → ledger.recover l = some r →
    some s ∈ r → B.Genuine ledger s
  /-- Consecutive shreds of which just the last one completes are joined by concatenation. -/
  deshred_concat : ∀ a b l, a ≤ b → B.completes b = true →
    (∀ j, a ≤ j → j < b → B.completes j = false) →
    List.Forall₂ (B.DataAt ledger) (List.range' a (b + 1 - a)) l →
    ledger.deshred (l.map Shred.payload) = some (B.payload a b)
  /-- The entries of a whole segment are decoded. -/
  decode_segment : ∀ a b, B.IsSegment a b →
    ∃ entries, ledger.deserialize (B.payload a b) = some entries
  /-- A proper suffix of a segment is rejected. -/
  decode_suffix : ∀ a b c, B.IsSegment a b → a < c → c ≤ b →
    ledger.deserialize (B.payload c b) = none

/-- The item was decoded from a whole segment of the block. -/
def Whole (ledger : Ledger) (B : Block) (d : Deshredded) : Prop :=
  B.IsSegment d.startDataCompleteIdx d.endDataCompleteIdx ∧
    d.payload = B.payload d.startDataCompleteIdx d.endDataCompleteIdx ∧
    ledger.deserialize d.payload = some d.entries

/-- The invariant of a slot that carries the block. -/
structure SlotInv (ledger : Ledger) (B : Block) (σ : SlotState) (out : List Deshredded) : Prop where
  inv : σ.Inv B.slot
  once : EmittedOnce σ out
  within : σ.Within (B.Genuine ledger)
  whole : ∀ d ∈ out, B.Whole ledger d
  covered : ∀ j, σ.deshredded j = true → ∃ d ∈ out, j ∈ d.range

variable {σ : SlotState} {out : List Deshredded}

/-- A stored shred is the data shred of the block at its position. -/
theorem SlotInv.dataAt (h : B.SlotInv ledger σ out) {i : Nat} {s : Shred}
    (hs : σ.dataShreds i = some s) : B.DataAt ledger i s :=
  ⟨h.within.stored i s hs, (h.inv.stored i s hs).1, (h.inv.stored i s hs).2.2.1⟩

/-- A segment is flagged as a whole. -/
theorem SlotInv.flagged (h : B.SlotInv ledger σ out) {a b j : Nat} (hseg : B.IsSegment a b)
    (h₁ : a ≤ j) (h₂ : j ≤ b) (hj : σ.deshredded j = true) :
    ∀ k, a ≤ k → k ≤ b → σ.deshredded k = true := by
  intro k hk₁ hk₂
  rcases h.covered j hj with ⟨d, hd, hjd⟩
  have heq := hseg.eq_of_mem (h.whole d hd).1 h₁ h₂ hjd.1 hjd.2
  exact h.once.flagged d hd k ⟨heq.1 ▸ hk₁, heq.2 ▸ hk₂⟩

/-! ## Attempts -/

/-- Every position has a segment start at or before it. -/
theorem exists_start (B : Block) (i : Nat) :
    ∃ a ≤ i, (a = 0 ∨ B.completes (a - 1) = true) ∧ ∀ j, a ≤ j → j < i → B.completes j = false := by
  induction i with
  | zero => exact ⟨0, le_rfl, Or.inl rfl, fun j h₁ h₂ => absurd h₂ (by omega)⟩
  | succ i ih =>
      cases hc : B.completes i with
      | true =>
          exact ⟨i + 1, le_rfl, Or.inr (by simpa using hc), fun j h₁ h₂ => absurd h₂ (by omega)⟩
      | false =>
          rcases ih with ⟨a, hle, hstart, hinner⟩
          refine ⟨a, hle.trans (Nat.le_succ i), hstart, ?_⟩
          intro j h₁ h₂
          rcases Nat.lt_or_eq_of_le (Nat.le_of_lt_succ h₂) with hlt | rfl
          · exact hinner j h₁ hlt
          · exact hc

/-- What decoding a range of the slot amounts to. -/
theorem decode_eq (hB : B.Honest ledger) (h : B.SlotInv ledger σ out) {a e : Nat} (hle : a ≤ e)
    (hknown : ∀ j, a ≤ j → j ≤ e → ∃ s, σ.dataShreds j = some s)
    (hinner : ∀ j, a ≤ j → j < e → B.completes j = false) (hclose : B.completes e = true) :
    σ.decode ledger a e =
      (ledger.deserialize (B.payload a e)).map fun entries => (B.payload a e, entries) := by
  have hall : List.Forall₂ (B.DataAt ledger) (List.range' a (e + 1 - a)) (σ.shredsIn a e) := by
    refine SlotState.forall₂_shredsIn fun j h₁ h₂ => ?_
    rcases hknown j h₁ h₂ with ⟨s, hs⟩
    exact ⟨s, hs, h.dataAt hs⟩
  unfold SlotState.decode
  rw [hB.deshred_concat a e _ hle hclose hinner hall]
  rfl

/-- What a successful attempt emits is a segment of the block. -/
theorem isSegment_of_decode (hB : B.Honest ledger) (h : B.SlotInv ledger σ out)
    {n f a e : Nat} {u : Bool} (hseg : Segment.IsSegment σ.line n f a e u) {payload : Bytes}
    {entries : List Entry} (hdecode : σ.decode ledger a e = some (payload, entries)) :
    B.IsSegment a e ∧ payload = B.payload a e ∧ ledger.deserialize payload = some entries := by
  have hle : a ≤ e := hseg.start_le.trans hseg.le_end
  have hinner : ∀ j, a ≤ j → j < e → B.completes j = false := by
    intro j h₁ h₂
    rcases SlotState.line_inner.mp (hseg.inner j h₁ h₂) with ⟨s, hs, hc⟩
    rw [← (h.dataAt hs).completes, hc]
  rcases SlotState.line_closing.mp hseg.closing with ⟨t, ht, htc⟩
  have hclose : B.completes e = true := by rw [← (h.dataAt ht).completes, htc]
  rw [decode_eq hB h hle (fun j h₁ h₂ => SlotState.exists_of_isSegment hseg h₁ h₂) hinner hclose,
    Option.map_eq_some_iff] at hdecode
  rcases hdecode with ⟨entries', hentries, heq⟩
  obtain ⟨rfl, rfl⟩ := Prod.mk.inj heq
  -- the block's segment around the range may only start where the range does
  rcases B.exists_start a with ⟨c, hca, hstart, hprefix⟩
  have hwhole : B.IsSegment c e := by
    refine ⟨hca.trans hle, (h.dataAt ht).lt, hstart, ?_, hclose⟩
    intro j h₁ h₂
    rcases Nat.lt_or_ge j a with hlt | hge
    · exact hprefix j h₁ hlt
    · exact hinner j hge h₂
  rcases Nat.lt_or_eq_of_le hca with hlt | rfl
  · rw [hB.decode_suffix c e a hwhole hlt hle] at hentries
    contradiction
  · exact ⟨hwhole, rfl, hentries⟩

/-- An attempt inside a complete segment that is not flagged yet succeeds. -/
theorem deshred_of_complete (hB : B.Honest ledger) (h : B.SlotInv ledger σ out) {a b f : Nat}
    (hseg : B.IsSegment a b) (h₁ : a ≤ f) (h₂ : f ≤ b)
    (hknown : ∀ j, a ≤ j → j ≤ b → ∃ s, σ.dataShreds j = some s)
    (hfresh : ∀ j, a ≤ j → j ≤ b → σ.deshredded j = false) :
    (σ.deshred ledger B.slot f).1 = σ.mark a b := by
  have hfound : Segment.IsSegment σ.line maxDataShredsPerSlot f a b
      (decide (0 < a ∧ σ.line.known (a - 1) = false)) := by
    refine ⟨h₁, h₂, hseg.lt.trans_le B.numData_le, ?_, ?_, hfresh, ?_, by simp⟩
    · rcases hknown b hseg.le le_rfl with ⟨s, hs⟩
      exact SlotState.line_closing.mpr ⟨s, hs, by rw [(h.dataAt hs).completes, hseg.closes]⟩
    · intro j hj₁ hj₂
      rcases hknown j hj₁ hj₂.le with ⟨s, hs⟩
      exact SlotState.line_inner.mpr
        ⟨s, hs, by rw [(h.dataAt hs).completes, hseg.inner j hj₁ hj₂]⟩
    · intro hpos hinner
      rcases SlotState.line_inner.mp hinner with ⟨s, hs, hc⟩
      rw [(h.dataAt hs).completes] at hc
      rcases hseg.start with hzero | hprev
      · omega
      · rw [hc] at hprev
        contradiction
  rcases hB.decode_segment a b hseg with ⟨entries, hentries⟩
  have hdecode : σ.decode ledger a b = some (B.payload a b, entries) := by
    rw [decode_eq hB h hseg.le hknown hseg.inner hseg.closes, hentries]
    rfl
  unfold SlotState.deshred
  rw [(Segment.segmentAt_eq_some_iff _ _ _ _ _).mpr hfound]
  simp only [hdecode]

/-! ## The invariant along a run -/

theorem slotInv_initial (ledger : Ledger) (B : Block) : B.SlotInv ledger SlotState.initial [] := by
  refine ⟨SlotState.inv_initial B.slot, ⟨by simp, by simp, by simp⟩, SlotState.Within.initial _,
    by simp, ?_⟩
  exact fun j hj => absurd hj (by simp [SlotState.initial])

/-- Taking a genuine shred keeps the invariant. -/
theorem SlotInv.ingest (h : B.SlotInv ledger σ out) {s : Shred} (hs : B.Genuine ledger s)
    (hadm : s.Admitted) (hslot : s.slot = B.slot) {σ' : SlotState}
    (hin : σ.ingest ledger s = some σ') : B.SlotInv ledger σ' out := by
  have hsame : σ'.deshredded = σ.deshredded := by
    rw [(SlotState.ingest_eq_some_iff.mp hin).2.2.2]
  refine ⟨h.inv.ingest hadm hslot hin, h.once.mono hsame, h.within.ingest hs hin, h.whole, ?_⟩
  rw [hsame]
  exact h.covered

/-- A recovery attempt keeps the invariant. -/
theorem SlotInv.recover (hB : B.Honest ledger) (h : B.SlotInv ledger σ out) (order : IterOrder)
    {f : FecSetIndex} (hf : f < maxDataShredsPerSlot) :
    B.SlotInv ledger (σ.recover ledger order f).1 out := by
  have hsame := (SlotState.recover_spec ledger order σ f).deshredded_eq
  refine ⟨h.inv.recover hf, h.once.mono hsame, h.within.recover ?_, h.whole, ?_⟩
  · intro items s hanswer hs
    refine hB.recover_genuine _ items s ?_ hanswer hs
    exact fun t ht => h.within.held f t (SlotState.mem_sortForRecovery.mp ht)
  · rw [hsame]
    exact h.covered

/-- A deshred attempt keeps the invariant. -/
theorem SlotInv.deshred (hB : B.Honest ledger) (h : B.SlotInv ledger σ out) (f : FecSetIndex) :
    B.SlotInv ledger (σ.deshred ledger B.slot f).1
      (out ++ (σ.deshred ledger B.slot f).2.toList) := by
  refine ⟨h.inv.deshred f, h.once.deshred f, h.within.deshred f, ?_, ?_⟩
  · intro d hd
    rcases SlotState.deshred_cases ledger B.slot σ f with
      heq | ⟨a, e, u, entries, payload, hseg, hdecode, heq⟩
    · exact h.whole d (by simpa [heq] using hd)
    · rw [heq] at hd
      rcases List.mem_append.mp hd with hd | hd
      · exact h.whole d hd
      · obtain rfl : d = _ := by simpa using hd
        exact isSegment_of_decode hB h hseg hdecode
  · intro j hj
    rcases SlotState.deshred_cases ledger B.slot σ f with
      heq | ⟨a, e, u, entries, payload, hseg, hdecode, heq⟩
    · rw [heq] at hj ⊢
      simpa using h.covered j hj
    · rw [heq] at hj ⊢
      rcases SlotState.mark_deshredded_iff.mp hj with hj | hj
      · rcases h.covered j hj with ⟨d, hd, hjd⟩
        exact ⟨d, List.mem_append_left _ hd, hjd⟩
      · exact ⟨⟨B.slot, a, e, u, entries, payload⟩, by simp, hj⟩

/-- The packets of the block's slot carry genuine shreds. -/
def Fed (ledger : Ledger) (B : Block) (calls : List Call) : Prop :=
  ∀ c ∈ calls, ∀ s ∈ c.shreds ledger, s.slot = B.slot → B.Genuine ledger s

/-- The invariant holds along every run that is fed with the block. -/
theorem slotInv_runs (hB : B.Honest ledger) {calls : List Call} (hfed : B.Fed ledger calls) :
    B.SlotInv ledger ((Machine.runs ledger calls).machine.slots B.slot)
      ((Machine.runs ledger calls).emittedFor B.slot) := by
  refine Machine.runs_slot_invariant (P := B.SlotInv ledger) B.slot calls (slotInv_initial ledger B)
    ?_ ?_ ?_
  · rintro σ out s σ' ⟨c, hc, hs⟩ hslot h hin
    exact h.ingest (hfed c hc s hs hslot) (Call.admitted_of_mem hs) hslot hin
  · exact fun σ out order f hf h => h.recover hB order hf
  · exact fun σ out f _ h => h.deshred hB f

/-! ## Complete segments -/

/-- Every complete segment is flagged. -/
def Complete (B : Block) (σ : SlotState) : Prop :=
  ∀ a b, B.IsSegment a b → (∀ j, a ≤ j → j ≤ b → ∃ s, σ.dataShreds j = some s) →
    ∀ j, a ≤ j → j ≤ b → σ.deshredded j = true

/-- Attempts at sets of a complete segment leave it flagged. -/
theorem run_deshred_complete (hB : B.Honest ledger) {l : List FecSetIndex} {f : FecSetIndex}
    (hf : f ∈ l) {a b : Nat} (hseg : B.IsSegment a b) (h₁ : a ≤ f) (h₂ : f ≤ b)
    (h : B.SlotInv ledger σ out) (hknown : ∀ j, a ≤ j → j ≤ b → ∃ s, σ.dataShreds j = some s) :
    ∀ j, a ≤ j → j ≤ b → (run (SlotState.deshred ledger B.slot) σ l).1.deshredded j = true := by
  induction l generalizing σ out with
  | nil => exact absurd hf List.not_mem_nil
  | cons g l ih =>
      simp only [run]
      have hnext := h.deshred hB g
      have hknown' : ∀ j, a ≤ j → j ≤ b →
          ∃ s, (σ.deshred ledger B.slot g).1.dataShreds j = some s := by
        intro j hj₁ hj₂
        rw [SlotState.deshred_dataShreds]
        exact hknown j hj₁ hj₂
      rcases List.mem_cons.mp hf with rfl | hf
      · -- the attempt at `f` flags the segment, unless it was flagged before
        have hnow : ∀ j, a ≤ j → j ≤ b → (σ.deshred ledger B.slot f).1.deshredded j = true := by
          by_cases hflag : ∃ j, a ≤ j ∧ j ≤ b ∧ σ.deshredded j = true
          · rcases hflag with ⟨j, hj₁, hj₂, hj⟩
            intro k hk₁ hk₂
            exact (SlotState.deshred_le f).deshredded k (h.flagged hseg hj₁ hj₂ hj k hk₁ hk₂)
          · intro k hk₁ hk₂
            rw [deshred_of_complete hB h hseg h₁ h₂ hknown, SlotState.mark_deshredded_iff]
            · exact Or.inr ⟨hk₁, hk₂⟩
            · intro j hj₁ hj₂
              rw [← Bool.not_eq_true]
              exact fun hj => hflag ⟨j, hj₁, hj₂, hj⟩
        intro j hj₁ hj₂
        exact (SlotState.run_deshred_le _ l).deshredded j (hnow j hj₁ hj₂)
      · exact ih hf hnext hknown'

/-- The shreds offered to the slot in one call. -/
def Offer (ledger : Ledger) (B : Block) (shreds : List Shred) : Prop :=
  ∀ s ∈ shreds, B.Genuine ledger s ∧ s.Admitted ∧ s.slot = B.slot

/-- Offering genuine shreds keeps the invariant. -/
theorem SlotInv.feed (h : B.SlotInv ledger σ out) {shreds : List Shred}
    (hshreds : B.Offer ledger shreds) : B.SlotInv ledger (σ.feed ledger shreds).1 out := by
  refine (SlotState.feed_invariant (P := B.SlotInv ledger) out h ?_).1
  intro σ s σ' hs hσ hin
  exact hσ.ingest (hshreds s hs).1 (hshreds s hs).2.1 (hshreds s hs).2.2 hin

theorem touched_lt {shreds : List Shred} (hshreds : B.Offer ledger shreds) :
    ∀ f ∈ σ.touched ledger shreds, f < maxDataShredsPerSlot := by
  intro f hf
  rcases (SlotState.feed_invariant (P := fun _ _ => True) [] trivial
    (fun _ _ _ _ _ _ => trivial)).2 f (mem_sortDedup.mp hf) with ⟨s, hs, rfl⟩
  exact (hshreds s hs).2.1.fecSetIndex_lt

/-- The ingest and recovery phases of a call keep the invariant. -/
theorem SlotInv.recoverAll (hB : B.Honest ledger) (h : B.SlotInv ledger σ out)
    {shreds : List Shred} (hshreds : B.Offer ledger shreds) (order : IterOrder) :
    B.SlotInv ledger (σ.recoverAll ledger order shreds).1 out :=
  (run_invariant (SlotState.recover ledger order) (P := fun τ => B.SlotInv ledger τ out)
    (Q := fun _ _ => True)
    (fun _ f hf hτ => ⟨hτ.recover hB order (touched_lt hshreds f hf), trivial⟩)
    (h.feed hshreds)).1

/-- A call leaves every complete segment flagged. -/
theorem process_complete (hB : B.Honest ledger) (h : B.SlotInv ledger σ out)
    (hcomplete : B.Complete σ) {shreds : List Shred} (hshreds : B.Offer ledger shreds)
    (order : IterOrder) : B.Complete (σ.process ledger order B.slot shreds).1 := by
  intro a b hseg hknown
  have hsame : (σ.process ledger order B.slot shreds).1.dataShreds =
      (σ.recoverAll ledger order shreds).1.dataShreds := SlotState.run_deshred_dataShreds _ _
  by_cases hold : ∀ j, a ≤ j → j ≤ b → ∃ s, σ.dataShreds j = some s
  · intro j h₁ h₂
    exact (SlotState.process_le shreds).deshredded j (hcomplete a b hseg hold j h₁ h₂)
  · -- some position of the segment was filled by this call, so its set was touched
    simp only [not_forall] at hold
    rcases hold with ⟨j, h₁, h₂, hnone⟩
    rcases hknown j h₁ h₂ with ⟨s, hs⟩
    rw [hsame] at hs hknown
    have hmid := h.recoverAll hB hshreds order
    have htouched : s.fecSetIndex ∈ σ.touched ledger shreds :=
      (SlotState.recoverAll_new (h.feed hshreds).inv (touched_lt hshreds) hs).resolve_left
        fun hs' => hnone ⟨s, hs'⟩
    rw [(hmid.dataAt hs).fecSetIndex] at htouched
    have hmem := hseg.fecOf_mem h₁ h₂
    exact run_deshred_complete hB htouched hseg hmem.1 hmem.2 hmid hknown

/-- Along every run that is fed with the block, known segments are emitted. -/
theorem complete_runs (hB : B.Honest ledger) {calls : List Call} (hfed : B.Fed ledger calls) :
    B.Complete ((Machine.runs ledger calls).machine.slots B.slot) := by
  induction calls using List.reverseRecOn with
  | nil =>
      intro a b hseg hknown
      rcases hknown a le_rfl hseg.le with ⟨s, hs⟩
      exact absurd hs (by simp [Machine.runs, Machine.Run.initial, Machine.initial,
        SlotState.initial])
  | append_singleton calls c ih =>
      have hprev : B.Fed ledger calls := fun c' hc' => hfed c' (List.mem_append_left _ hc')
      have hstep := congrArg Prod.fst (@Machine.runs_concat_slot ledger calls c B.slot)
      simp only at hstep
      rw [hstep]
      refine process_complete hB (slotInv_runs hB hprev) (ih hprev) ?_ c.order
      intro s hs
      have hs' := (Machine.offered_sublist _ _ _).subset hs
      rw [List.mem_filter, decide_eq_true_eq] at hs'
      exact ⟨hfed c (by simp) s hs'.1 hs'.2, Call.admitted_of_mem hs'.1, hs'.2⟩

/-- Exactly one emitted item overlaps a flagged segment, and it is that segment. -/
theorem SlotInv.emitted_once (h : B.SlotInv ledger σ out) {a b : Nat} (hseg : B.IsSegment a b)
    (hflag : σ.deshredded a = true) :
    ∃ d, out.filter (fun d => d.startDataCompleteIdx ≤ b ∧ a ≤ d.endDataCompleteIdx) = [d] ∧
      d.startDataCompleteIdx = a ∧ d.endDataCompleteIdx = b ∧ B.Whole ledger d := by
  have hrange : ∀ d ∈ out.filter (fun d => d.startDataCompleteIdx ≤ b ∧ a ≤ d.endDataCompleteIdx),
      d.startDataCompleteIdx = a ∧ d.endDataCompleteIdx = b ∧ d ∈ out := by
    intro d hd
    rw [List.mem_filter, decide_eq_true_eq] at hd
    have hwhole := (h.whole d hd.1).1
    have hle := hwhole.le
    have hle' := hseg.le
    rcases Nat.le_total a d.startDataCompleteIdx with hge | hge
    · have heq := hseg.eq_of_mem hwhole hge hd.2.1 le_rfl hle
      exact ⟨heq.1.symm, heq.2.symm, hd.1⟩
    · have heq := hseg.eq_of_mem hwhole le_rfl hle' hge hd.2.2
      exact ⟨heq.1.symm, heq.2.symm, hd.1⟩
  rcases h.covered a hflag with ⟨d, hd, hda⟩
  have hmem : d ∈ out.filter
      (fun d => d.startDataCompleteIdx ≤ b ∧ a ≤ d.endDataCompleteIdx) := by
    rw [List.mem_filter, decide_eq_true_eq]
    exact ⟨hd, hda.1.trans hseg.le, hda.2⟩
  have hpair := h.once.disjoint.filter fun d =>
    d.startDataCompleteIdx ≤ b ∧ a ≤ d.endDataCompleteIdx
  rcases hlist : out.filter
      (fun d => d.startDataCompleteIdx ≤ b ∧ a ≤ d.endDataCompleteIdx) with _ | ⟨x, _ | ⟨y, rest⟩⟩
  · rw [hlist] at hmem
    exact absurd hmem List.not_mem_nil
  · have hx := hrange x (by rw [hlist]; exact List.mem_cons_self)
    exact ⟨x, hlist, hx.1, hx.2.1, h.whole x hx.2.2⟩
  · -- two such items would both cover `a`
    have hx := hrange x (by rw [hlist]; simp)
    have hy := hrange y (by rw [hlist]; simp)
    rw [hlist, List.pairwise_cons] at hpair
    have hdisj := hpair.1 y (by simp)
    have hax : a ∈ x.range := ⟨hx.1.le, hseg.le.trans hx.2.1.ge⟩
    have hay : a ∈ y.range := ⟨hy.1.le, hseg.le.trans hy.2.1.ge⟩
    exact absurd hay (Set.disjoint_left.mp hdisj hax)

end Block

/-! ## The small ledger -/

namespace Block

/-- The segments of the block in slot 0 of the small ledger. -/
theorem isSegment_sample {a b : Nat} (h : sample.IsSegment a b) :
    (a = 0 ∧ b = 0) ∨ (a = 1 ∧ b = 2) := by
  have hlt : b < 3 := h.lt
  have hle := h.le
  have hstart := h.start
  have hinner := h.inner 0
  have hcloses := h.closes
  interval_cases b <;> interval_cases a <;> simp_all [sample]

/-- The data shreds of the small block carry their index. -/
theorem payload_sample {i : Nat} {s : Shred} (h : sample.DataAt Ledger.sample i s) :
    s.payload = sample.data i := by
  cases s with
  | shredCode c => exact absurd h.shredType (by simp [Shred.shredType])
  | shredData d => exact h.index ▸ Option.some.inj h.genuine.2.2.2.2

/-- The small ledger is honest about the small block. -/
theorem honest_sample : sample.Honest Ledger.sample where
  recover_genuine := by
    intro l r s _ hr hs
    simp only [Ledger.sample, Sample.recover] at hr
    split at hr
    · obtain rfl := Option.some.inj hr
      rcases List.mem_map.mp hs with ⟨t, ht, heq⟩
      obtain rfl := Option.some.inj heq
      have hmem := (List.mem_filter.mp ht).1
      rcases List.mem_cons.mp hmem with rfl | hmem
      · exact ⟨rfl, by decide, rfl, rfl, rfl⟩
      · obtain rfl := List.mem_singleton.mp hmem
        exact ⟨rfl, by decide, rfl, rfl, rfl⟩
    · contradiction
  deshred_concat := by
    intro a b l _ _ _ hl
    have hmap : l.map Shred.payload = (List.range' a (b + 1 - a)).map sample.data := by
      generalize List.range' a (b + 1 - a) = indexes at hl
      induction hl with
      | nil => rfl
      | cons hhead _ ih => rw [List.map_cons, List.map_cons, payload_sample hhead, ih]
    simp only [Ledger.sample, hmap]
    rfl
  decode_segment := by
    intro a b hseg
    rcases isSegment_sample hseg with ⟨rfl, rfl⟩ | ⟨rfl, rfl⟩
    · exact ⟨[], by decide⟩
    · exact ⟨[], by decide⟩
  decode_suffix := by
    intro a b c hseg h₁ h₂
    rcases isSegment_sample hseg with ⟨rfl, rfl⟩ | ⟨rfl, rfl⟩
    · omega
    · obtain rfl : c = 2 := by omega
      decide

/-- Every run on packets of the small ledger carries the block. -/
theorem fed_sample (calls : List Call) : sample.Fed Ledger.sample calls := by
  intro c _ s hs hslot
  rcases List.mem_filterMap.mp hs with ⟨p, _, hp⟩
  rcases Option.bind_eq_some_iff.mp hp with ⟨bytes, _, hparse⟩
  simp only [Ledger.sample, Sample.parse] at hparse
  split at hparse
  · obtain rfl := Option.some.inj hparse
    exact ⟨rfl, by decide, rfl, rfl, rfl⟩
  · obtain rfl := Option.some.inj hparse
    exact ⟨rfl, by decide, rfl, rfl, rfl⟩
  · obtain rfl := Option.some.inj hparse
    exact ⟨rfl, by decide, rfl, rfl, rfl⟩
  · obtain rfl := Option.some.inj hparse
    exact ⟨rfl, rfl⟩
  · obtain rfl := Option.some.inj hparse
    exact absurd hslot (by decide)
  · obtain rfl := Option.some.inj hparse
    exact absurd hslot (by decide)
  · obtain rfl := Option.some.inj hparse
    exact absurd hslot (by decide)
  · contradiction

end Block

/-! ## The code -/

/-- A slot of the code that stores a shred was not dropped. -/
theorem Sim.view_of_stored {state : ProxyState} {m : Machine} (h : Sim state m) {slot : Slot}
    {i : Nat} {s : Shred} (hs : (state.allShreds.view slot).dataShreds i = some s) :
    state.allShreds.view slot = m.slots slot := by
  rcases h.slots slot with heq | ⟨_, hinit⟩
  · exact heq
  · rw [hinit] at hs
    contradiction

/-- Along every run in which a slot's packets carry the genuine shreds of one honestly built
block, at the end of each call every segment of the slot whose data indexes are all present
has been deshredded as a whole, and exactly one item overlapping it was pushed: its own
payload with the entries decoded from it. -/
theorem complete_segments_emitted_once (ledger : Ledger) (B : Block) (hB : B.Honest ledger)
    (calls : List Call) (hfed : B.Fed ledger calls) :
    ∃ h, runCalls ledger calls = .ok h ∧
      ∀ entry : SlotEntry, h.state.allShreds[B.slot]? = some entry → ∀ a b, B.IsSegment a b →
        (∀ j, a ≤ j → j ≤ b → ∃ s, entry.stateTracker.dataShreds[j]? = some (some s)) →
        (∀ j, a ≤ j → j ≤ b → entry.stateTracker.alreadyDeshredded[j]? = some true) ∧
        ∃ entries d, ledger.deserialize (B.payload a b) = some entries ∧
          d.startDataCompleteIdx = a ∧ d.endDataCompleteIdx = b ∧ d.entries = entries ∧
          d.payload = B.payload a b ∧
          (h.pushed.filter fun d => d.slot = B.slot ∧ d.startDataCompleteIdx ≤ b ∧
            a ≤ d.endDataCompleteIdx) = [d] := by
  rcases runCalls_sim ledger calls with ⟨h, hh, hsim, hall⟩
  refine ⟨h, hh, ?_⟩
  intro entry hentry a b hseg hpresent
  have hview : h.state.allShreds.view B.slot = entry.view := by
    unfold SlotMap.view
    rw [SlotMap.entry_of_getElem? hentry]
  have hknown : ∀ j, a ≤ j → j ≤ b → ∃ s, entry.view.dataShreds j = some s := by
    intro j h₁ h₂
    rcases hpresent j h₁ h₂ with ⟨s, hs⟩
    exact ⟨s, getElem?_join_eq_some.mpr hs⟩
  rcases hknown a le_rfl hseg.le with ⟨s, hs⟩
  have hghost : entry.view = (Machine.runs ledger calls).machine.slots B.slot := by
    rw [← hview] at hs ⊢
    exact hsim.view_of_stored hs
  rw [hghost] at hknown
  have hinv := Block.slotInv_runs hB hfed
  have hflag := Block.complete_runs hB hfed a b hseg hknown
  refine ⟨?_, ?_⟩
  · intro j h₁ h₂
    have hj := hflag j h₁ h₂
    rw [← hghost] at hj
    exact getElem?_getD_eq_true.mp hj
  · rcases hinv.emitted_once hseg (hflag a le_rfl hseg.le) with ⟨d, hd, hstart, hend, hwhole⟩
    refine ⟨d.entries, d, ?_, hstart, hend, rfl, ?_, ?_⟩
    · rw [← hstart, ← hend, ← hwhole.2.1]
      exact hwhole.2.2
    · rw [hwhole.2.1, hstart, hend]
    · rw [← hd, Machine.Run.emittedFor, ← pushed_eq_emitted hall, List.filter_filter]
      congr 1
      funext d
      rw [Bool.and_comm, Bool.decide_and]

/-- A slot that is not too old has an entry as soon as one of its data shreds is known. -/
theorem Sim.exists_entry {state : ProxyState} {m : Machine} (h : Sim state m) {slot : Slot}
    {i : Nat} {s : Shred} (hlive : m.highest - slotLookback ≤ slot)
    (hs : (m.slots slot).dataShreds i = some s) :
    ∃ entry, state.allShreds[slot]? = some entry ∧ entry.view = m.slots slot := by
  have hview : state.allShreds.view slot = m.slots slot :=
    (h.slots slot).resolve_right fun hold => absurd hold.1 (Nat.not_lt.mpr hlive)
  cases hentry : state.allShreds[slot]? with
  | some entry =>
      refine ⟨entry, rfl, ?_⟩
      rw [← hview, SlotMap.view, SlotMap.entry_of_getElem? hentry]
  | none =>
      have hmem : slot ∉ state.allShreds := by
        rw [Std.ExtTreeMap.mem_iff_isSome_getElem?, hentry]
        simp
      rw [← hview, SlotMap.view, SlotMap.entry_of_not_mem hmem, SlotEntry.view_default] at hs
      contradiction

/-- Data shred 2 and the coding shred of its set come first, so that data shred 1 is recovered and
the segment of the two is complete; then data shred 0 comes.  The segment is pushed once. -/
theorem complete_segments_emitted_once_sample :
    Block.sample.IsSegment 1 2 ∧
      ∃ h entry, runCalls Ledger.sample [Sample.call [2, 3], Sample.call [0]] = .ok h ∧
        h.state.allShreds[Block.sample.slot]? = some entry ∧
        (∀ j, 1 ≤ j → j ≤ 2 → ∃ s, entry.stateTracker.dataShreds[j]? = some (some s)) ∧
        (∀ j, 1 ≤ j → j ≤ 2 → entry.stateTracker.alreadyDeshredded[j]? = some true) ∧
        ∃ d, d.startDataCompleteIdx = 1 ∧ d.endDataCompleteIdx = 2 ∧ d.payload = [1, 2] ∧
          (h.pushed.filter fun d => d.slot = Block.sample.slot ∧ d.startDataCompleteIdx ≤ 2 ∧
            1 ≤ d.endDataCompleteIdx) = [d] := by
  have hseg : Block.sample.IsSegment 1 2 := by
    refine ⟨by decide, by decide, Or.inr rfl, ?_, rfl⟩
    intro j h₁ h₂
    obtain rfl : j = 1 := by omega
    rfl
  have hone : ((Machine.runs Ledger.sample [Sample.call [2, 3], Sample.call [0]]).machine.slots
      0).dataShreds 1 = some (Sample.data 0 1 1 false) := by
    decide +kernel
  have htwo : ((Machine.runs Ledger.sample [Sample.call [2, 3], Sample.call [0]]).machine.slots
      0).dataShreds 2 = some (Sample.data 0 2 1 true) := by
    decide +kernel
  rcases complete_segments_emitted_once Ledger.sample Block.sample Block.honest_sample
    [Sample.call [2, 3], Sample.call [0]] (Block.fed_sample _) with ⟨h, hh, hall⟩
  rcases (sim_of_runCalls hh).exists_entry (by decide +kernel) hone with ⟨entry, hentry, hview⟩
  have hpresent : ∀ j, 1 ≤ j → j ≤ 2 → ∃ s, entry.stateTracker.dataShreds[j]? = some (some s) := by
    intro j h₁ h₂
    have hsame := congrFun (congrArg SlotState.dataShreds hview) j
    rcases Nat.lt_or_eq_of_le h₁ with h₁ | rfl
    · obtain rfl : j = 2 := by omega
      exact ⟨_, getElem?_join_eq_some.mp (hsame.trans htwo)⟩
    · exact ⟨_, getElem?_join_eq_some.mp (hsame.trans hone)⟩
  rcases hall entry hentry 1 2 hseg hpresent with
    ⟨hflags, _, d, _, hstart, hend, _, hpayload, hpushed⟩
  exact ⟨hseg, h, entry, hh, hentry, hpresent, hflags, d, hstart, hend, hpayload, hpushed⟩

end ShredstreamProxy
