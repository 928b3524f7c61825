import ShredstreamProxy.Slot.Machine

/-!
# Runs of the total machine

A run is a sequence of calls from the empty machine.  The machine never prunes; two
machines that differ only in slots below the threshold cannot be told apart by any
later call, which is why pruning can be left out here.  The last section is the
induction rule that the properties of single slots are proved by: it reduces a run to
the three operations on one slot.

Main results:

- Theorem {lit}`Machine.Agree.process`: machines that agree on the slots above the
  threshold have the same outcome and agree again.
- Theorem {lit}`Machine.runs_slot_invariant`: an invariant of one slot and its emitted
  items, kept by ingesting, recovering and deshredding, holds along every run.
-/

namespace ShredstreamProxy

open KeyedFold

/-- The shreds carried by the packets of a call. -/
def Call.shreds (ledger : Ledger) (call : Call) : List Shred :=
  call.packets.filterMap (packetShred ledger)

/-- The shred of a packet is admitted. -/
theorem packetShred_admitted {ledger : Ledger} {p : Packet} {s : Shred}
    (h : packetShred ledger p = some s) : s.Admitted := by
  unfold packetShred at h
  rcases Option.bind_eq_some_iff.mp h with ⟨bytes, _, hparse⟩
  exact ledger.parse_admitted hparse

/-- The shreds of a call are admitted. -/
theorem Call.admitted_of_mem {ledger : Ledger} {call : Call} {s : Shred}
    (h : s ∈ call.shreds ledger) : s.Admitted := by
  rcases List.mem_filterMap.mp h with ⟨p, _, hp⟩
  exact packetShred_admitted hp

/-! ## Slots below the threshold do not matter -/

namespace Feed

/-- Two ingest loops that agree on the slots from `floor` on. -/
structure Agree (floor : Slot) (m m' : Feed) : Prop where
  highest : m.highest = m'.highest
  work : m.work = m'.work
  slots : ∀ slot, floor ≤ slot → m.slots slot = m'.slots slot
  floor_le : floor ≤ m.highest - slotLookback
  work_ge : ∀ w ∈ m.work, floor ≤ w.1

variable {ledger : Ledger} {floor : Slot} {m m' : Feed}

/-- Ingest loops that agree do so after one more shred. -/
theorem Agree.ingest (h : Agree floor m m') (s : Shred) :
    Agree floor (m.ingest ledger s) (m'.ingest ledger s) := by
  by_cases hstale : m.highest - slotLookback > s.slot
  · have hstale' : m'.highest - slotLookback > s.slot := h.highest ▸ hstale
    simpa [Feed.ingest, hstale, hstale'] using h
  · have hfresh' : ¬ m'.highest - slotLookback > s.slot := h.highest ▸ hstale
    have hge : floor ≤ s.slot := h.floor_le.trans (Nat.le_of_not_lt hstale)
    have hslot := h.slots s.slot hge
    simp only [Feed.ingest, hstale, hfresh', if_false, ← hslot]
    cases hin : (m.slots s.slot).ingest ledger s with
    | none => exact h
    | some σ =>
        refine ⟨by simp [h.highest], by simp [h.work], ?_, ?_, ?_⟩
        · intro slot hle
          by_cases hs : slot = s.slot
          · simp [hs]
          · simpa [hs] using h.slots slot hle
        · exact h.floor_le.trans (Nat.sub_le_sub_right (le_max_left _ _) _)
        · intro w hw
          rcases List.mem_append.mp hw with hw | hw
          · exact h.work_ge w hw
          · obtain rfl := List.mem_singleton.mp hw
            exact hge

/-- Ingest loops that agree do so after any shreds. -/
theorem Agree.foldl (h : Agree floor m m') (l : List Shred) :
    Agree floor (l.foldl (Feed.ingest ledger) m) (l.foldl (Feed.ingest ledger) m') := by
  induction l generalizing m m' with
  | nil => exact h
  | cons s l ih => exact ih (h.ingest s)

/-- Ingest loops that agree have the same shreds stale. -/
theorem Agree.live_eq (h : Agree floor m m') (l : List Shred) :
    m.live ledger l = m'.live ledger l := by
  induction l generalizing m m' with
  | nil => rfl
  | cons s l ih =>
      unfold live
      rw [h.highest, ih h, ih (h.ingest s)]

end Feed

namespace Machine

/-- Two machines agree when they have seen the same highest slot and hold the same for
every slot that is not below the threshold. -/
structure Agree (m m' : Machine) : Prop where
  highest : m.highest = m'.highest
  slots : ∀ slot, m.highest - slotLookback ≤ slot → m.slots slot = m'.slots slot

variable {ledger : Ledger} {order : IterOrder} {m m' : Machine}

theorem Agree.refl (m : Machine) : Agree m m :=
  ⟨rfl, fun _ _ => rfl⟩

/-- The ingest loops of machines that agree start in agreement. -/
theorem Agree.toFeed (h : Agree m m') :
    Feed.Agree (m.highest - slotLookback) m.toFeed m'.toFeed where
  highest := h.highest
  work := rfl
  slots := h.slots
  floor_le := le_rfl
  work_ge := fun _ hw => absurd hw List.not_mem_nil

/-- Machines that agree offer the same shreds to a slot. -/
theorem Agree.offered_eq (h : Agree m m') (shreds : List Shred) (slot : Slot) :
    m.offered ledger shreds slot = m'.offered ledger shreds slot := by
  unfold offered
  rw [h.toFeed.live_eq]

/-- Families that are equal from `floor` on stay so, with equal outputs, under work on
these slots only. -/
theorem keyedRun_eq_above {β : Type} (step : Slot → SlotState → FecSetIndex → SlotState × β)
    {floor : Slot} {work : List (Slot × FecSetIndex)} (hwork : ∀ w ∈ work, floor ≤ w.1)
    {f g : Slot → SlotState} (h : ∀ slot, floor ≤ slot → f slot = g slot) :
    (∀ slot, floor ≤ slot → (keyedRun step f work).1 slot = (keyedRun step g work).1 slot) ∧
      (keyedRun step f work).2 = (keyedRun step g work).2 := by
  refine keyedRun_congr (R := fun slot σ τ => floor ≤ slot → σ = τ) step step ?_ h
  intro w hw σ τ hστ
  rw [hστ (hwork w hw)]
  exact ⟨fun _ => rfl, rfl⟩

/-- Machines that agree have the same outcome and agree again. -/
theorem Agree.process (h : Agree m m') (shreds : List Shred) :
    Agree (m.process ledger order shreds).machine (m'.process ledger order shreds).machine ∧
      (m.process ledger order shreds).work = (m'.process ledger order shreds).work ∧
      (m.process ledger order shreds).emitted = (m'.process ledger order shreds).emitted ∧
      (m.process ledger order shreds).count = (m'.process ledger order shreds).count := by
  have hfeed : Feed.Agree (m.highest - slotLookback) (shreds.foldl (Feed.ingest ledger) m.toFeed)
      (shreds.foldl (Feed.ingest ledger) m'.toFeed) := h.toFeed.foldl shreds
  have hwork : ∀ w ∈ sortDedup lexLe (shreds.foldl (Feed.ingest ledger) m.toFeed).work,
      m.highest - slotLookback ≤ w.1 := fun w hw => hfeed.work_ge w (mem_sortDedup.mp hw)
  have hrec := keyedRun_eq_above (fun _ σ f => σ.recover ledger order f) hwork hfeed.slots
  have hdes := keyedRun_eq_above (fun slot σ f => σ.deshred ledger slot f) hwork hrec.1
  simp only [Machine.process, ← hfeed.work, hdes.2, hrec.2, and_true]
  refine ⟨hfeed.highest, ?_⟩
  intro slot hle
  have hmono : m.highest ≤ (shreds.foldl (Feed.ingest ledger) m.toFeed).highest :=
    Feed.highest_le_foldl m.toFeed shreds
  exact hdes.1 slot ((Nat.sub_le_sub_right hmono _).trans hle)

/-! ## Runs -/

/-- The outcome of one call. -/
def call (ledger : Ledger) (m : Machine) (c : Call) : Outcome :=
  m.process ledger c.order (c.shreds ledger)

/-- The machine after some calls and the outcome of each of them. -/
structure Run where
  machine : Machine
  outcomes : List Outcome

namespace Run

def initial : Run := ⟨Machine.initial, []⟩

def extend (ledger : Ledger) (r : Run) (c : Call) : Run :=
  ⟨(r.machine.call ledger c).machine, r.outcomes ++ [r.machine.call ledger c]⟩

/-- Everything emitted for one slot so far, in order. -/
def emittedFor (r : Run) (slot : Slot) : List Deshredded :=
  (r.outcomes.flatMap Outcome.emitted).filter fun d => d.slot = slot

end Run

/-- The run of a sequence of calls. -/
def runs (ledger : Ledger) (calls : List Call) : Run :=
  calls.foldl (Run.extend ledger) Run.initial

theorem runs_concat (calls : List Call) (c : Call) :
    runs ledger (calls ++ [c]) = (runs ledger calls).extend ledger c := by
  simp [runs]

/-- Every outcome of a run is the outcome of one of its calls. -/
theorem exists_of_mem_outcomes {calls : List Call} {o : Outcome}
    (h : o ∈ (runs ledger calls).outcomes) : ∃ m, ∃ c ∈ calls, o = call ledger m c := by
  induction calls using List.reverseRecOn with
  | nil => exact absurd h List.not_mem_nil
  | append_singleton calls c ih =>
      rw [runs_concat] at h
      rcases List.mem_append.mp h with h | h
      · rcases ih h with ⟨m, c', hc', ho⟩
        exact ⟨m, c', List.mem_append_left _ hc', ho⟩
      · exact ⟨_, c, by simp, List.mem_singleton.mp h⟩

/-- One slot of an extended run is a one-slot call. -/
theorem runs_concat_slot (calls : List Call) (c : Call) (slot : Slot) :
    ((runs ledger (calls ++ [c])).machine.slots slot,
        (runs ledger (calls ++ [c])).emittedFor slot) =
      (let σ := (runs ledger calls).machine.slots slot
       let shreds := (runs ledger calls).machine.offered ledger (c.shreds ledger) slot
       ((σ.process ledger c.order slot shreds).1,
        (runs ledger calls).emittedFor slot ++ (σ.process ledger c.order slot shreds).2)) := by
  rw [runs_concat]
  simp only [Run.extend, Run.emittedFor, call, process_slot, ← process_emitted, List.flatMap_append,
    List.flatMap_singleton, List.filter_append]

/-! ## The induction rule for one slot -/

end Machine

namespace SlotState

variable {ledger : Ledger} {order : IterOrder} {slot : Slot}
  {P : SlotState → List Deshredded → Prop} (out : List Deshredded)

/-- An invariant kept by every shred that is taken holds after all are offered. -/
theorem feed_invariant {σ : SlotState} {shreds : List Shred} (h : P σ out)
    (hingest : ∀ σ s σ', s ∈ shreds → P σ out → σ.ingest ledger s = some σ' → P σ' out) :
    P (σ.feed ledger shreds).1 out ∧
      ∀ f ∈ (σ.feed ledger shreds).2, ∃ s ∈ shreds, s.fecSetIndex = f := by
  have hloop : ∀ (l : List Shred) (acc : SlotState × List FecSetIndex), (∀ s ∈ l, s ∈ shreds) →
      P acc.1 out → (∀ f ∈ acc.2, ∃ s ∈ shreds, s.fecSetIndex = f) →
      P (l.foldl (offer ledger) acc).1 out ∧
        ∀ f ∈ (l.foldl (offer ledger) acc).2, ∃ s ∈ shreds, s.fecSetIndex = f := by
    intro l
    induction l with
    | nil => exact fun acc _ hP hf => ⟨hP, hf⟩
    | cons s l ih =>
        intro acc hmem hP hf
        have hrest : ∀ t ∈ l, t ∈ shreds := fun t ht => hmem t (List.mem_cons_of_mem s ht)
        rw [List.foldl_cons]
        cases hin : acc.1.ingest ledger s with
        | none =>
            have hsame : offer ledger acc s = acc := by simp [offer, hin]
            rw [hsame]
            exact ih acc hrest hP hf
        | some σ' =>
            have hnext : offer ledger acc s = (σ', acc.2 ++ [s.fecSetIndex]) := by
              simp [offer, hin]
            rw [hnext]
            have hs := hmem s List.mem_cons_self
            refine ih _ hrest (hingest _ _ _ hs hP hin) ?_
            intro f hmemf
            rcases List.mem_append.mp hmemf with hmemf | hmemf
            · exact hf f hmemf
            · exact ⟨s, hs, (List.mem_singleton.mp hmemf).symm⟩
  exact hloop shreds (σ, []) (fun _ hs => hs) h (by simp)

/-- Offering shreds changes no flags. -/
theorem feed_flags (σ : SlotState) (shreds : List Shred) :
    (σ.feed ledger shreds).1.recovered = σ.recovered ∧
      (σ.feed ledger shreds).1.deshredded = σ.deshredded := by
  refine (feed_invariant
    (P := fun τ _ => τ.recovered = σ.recovered ∧ τ.deshredded = σ.deshredded) [] ⟨rfl, rfl⟩ ?_).1
  intro τ s τ' _ hτ hin
  rw [(ingest_eq_some_iff.mp hin).2.2.2]
  exact hτ

/-- A position filled by offering shreds belongs to a set of the work list. -/
theorem feed_new (σ : SlotState) (shreds : List Shred) {i : Nat} {s : Shred}
    (h : (σ.feed ledger shreds).1.dataShreds i = some s) :
    σ.dataShreds i = some s ∨ s.fecSetIndex ∈ (σ.feed ledger shreds).2 := by
  have hloop : ∀ (l : List Shred) (acc : SlotState × List FecSetIndex),
      (∀ i s, acc.1.dataShreds i = some s → σ.dataShreds i = some s ∨ s.fecSetIndex ∈ acc.2) →
      ∀ i s, (l.foldl (offer ledger) acc).1.dataShreds i = some s →
        σ.dataShreds i = some s ∨ s.fecSetIndex ∈ (l.foldl (offer ledger) acc).2 := by
    intro l
    induction l with
    | nil => exact fun acc h => h
    | cons t l ih =>
        intro acc hacc
        refine ih _ ?_
        unfold offer
        split
        · exact hacc
        · rename_i σ' hin
          rcases ingest_eq_some_iff.mp hin with ⟨_, _, _, rfl⟩
          intro i s hs
          simp only at hs
          split at hs
          · by_cases hi : i = t.index
            · subst hi
              obtain rfl : t = s := by simpa using hs
              exact Or.inr (by simp)
            · rw [Function.update_of_ne hi] at hs
              exact (hacc i s hs).imp_right (List.mem_append_left _)
          · exact (hacc i s hs).imp_right (List.mem_append_left _)
  exact hloop shreds (σ, []) (fun i s hs => Or.inl hs) i s h

/-- A position filled by the first two phases of a call belongs to a set the call iterates
over. -/
theorem recoverAll_new {σ : SlotState} {shreds : List Shred}
    (hinv : (σ.feed ledger shreds).1.Inv slot)
    (hlt : ∀ f ∈ σ.touched ledger shreds, f < maxDataShredsPerSlot) {i : Nat} {s : Shred}
    (h : (σ.recoverAll ledger order shreds).1.dataShreds i = some s) :
    σ.dataShreds i = some s ∨ s.fecSetIndex ∈ σ.touched ledger shreds := by
  have hrun := (run_invariant (recover ledger order) (l := σ.touched ledger shreds)
    (P := fun τ => τ.Inv slot ∧ ∀ i s, τ.dataShreds i = some s →
      σ.dataShreds i = some s ∨ s.fecSetIndex ∈ σ.touched ledger shreds)
    (Q := fun _ _ => True) ?_ ⟨hinv, ?_⟩).1
  · exact hrun.2 i s h
  · rintro τ f hf ⟨hτ, hnew⟩
    refine ⟨⟨hτ.recover (hlt f hf), ?_⟩, trivial⟩
    intro i s hs
    rcases (recover_spec ledger order τ f).source i s hs with
      hs | ⟨items, hcalls, hanswer, hmem, _⟩
    · exact hnew i s hs
    · right
      rw [(hτ.answer_admitted hcalls hanswer hmem).2.2]
      exact hf
  · intro i s hs
    exact (feed_new σ shreds hs).imp_right mem_sortDedup.mpr

@[simp]
theorem deshred_dataShreds (σ : SlotState) (f : FecSetIndex) :
    (σ.deshred ledger slot f).1.dataShreds = σ.dataShreds := by
  rcases deshred_cases ledger slot σ f with heq | ⟨a, e, u, _, _, _, _, heq⟩
  · rw [heq]
  · rw [heq]
    rfl

theorem run_deshred_dataShreds (σ : SlotState) (l : List FecSetIndex) :
    (run (deshred ledger slot) σ l).1.dataShreds = σ.dataShreds := by
  induction l generalizing σ with
  | nil => rfl
  | cons f l ih =>
      simp only [run]
      rw [ih, deshred_dataShreds]

/-- An invariant kept by deshred attempts is kept by the deshred loop. -/
theorem run_deshred_invariant {l : List FecSetIndex} {σ : SlotState} (h : P σ out)
    (hdeshred : ∀ σ out f, f ∈ l → P σ out →
      P (σ.deshred ledger slot f).1 (out ++ (σ.deshred ledger slot f).2.toList)) :
    P (run (deshred ledger slot) σ l).1
      (out ++ (run (deshred ledger slot) σ l).2.filterMap id) := by
  induction l generalizing σ out with
  | nil => simpa [run] using h
  | cons f l ih =>
      have hhead := hdeshred σ out f List.mem_cons_self h
      have htail := ih _ hhead fun σ out g hg => hdeshred σ out g (List.mem_cons_of_mem f hg)
      rw [List.append_assoc] at htail
      cases hout : (σ.deshred ledger slot f).2 <;> simpa [run, hout] using htail

/-- An invariant kept by the three operations is kept by a call. -/
theorem process_invariant {σ : SlotState} {shreds : List Shred} (h : P σ out)
    (hingest : ∀ σ out s σ', s ∈ shreds → P σ out → σ.ingest ledger s = some σ' → P σ' out)
    (hrecover : ∀ σ out f, (∃ s ∈ shreds, s.fecSetIndex = f) → P σ out →
      P (σ.recover ledger order f).1 out)
    (hdeshred : ∀ σ out f, (∃ s ∈ shreds, s.fecSetIndex = f) → P σ out →
      P (σ.deshred ledger slot f).1 (out ++ (σ.deshred ledger slot f).2.toList)) :
    P (σ.process ledger order slot shreds).1 (out ++ (σ.process ledger order slot shreds).2) := by
  have hfeed := feed_invariant out h fun σ s σ' => hingest σ out s σ'
  have htouched : ∀ f ∈ σ.touched ledger shreds, ∃ s ∈ shreds, s.fecSetIndex = f :=
    fun f hf => hfeed.2 f (mem_sortDedup.mp hf)
  have hrec : P (σ.recoverAll ledger order shreds).1 out :=
    (run_invariant (recover ledger order) (P := fun σ => P σ out) (Q := fun _ _ => True)
      (fun τ f hf hτ => ⟨hrecover τ out f (htouched f hf) hτ, trivial⟩) hfeed.1).1
  exact run_deshred_invariant out hrec fun σ out f hf => hdeshred σ out f (htouched f hf)

end SlotState

namespace Machine

variable {ledger : Ledger}

/-- An invariant of one slot and its emitted items that the three operations keep holds
along every run. -/
theorem runs_slot_invariant {P : SlotState → List Deshredded → Prop} (slot : Slot)
    (calls : List Call) (h : P SlotState.initial [])
    (hingest : ∀ σ out s σ', (∃ c ∈ calls, s ∈ c.shreds ledger) → s.slot = slot → P σ out →
      σ.ingest ledger s = some σ' → P σ' out)
    (hrecover : ∀ σ out order f, f < maxDataShredsPerSlot → P σ out →
      P (σ.recover ledger order f).1 out)
    (hdeshred : ∀ σ out f, f < maxDataShredsPerSlot → P σ out →
      P (σ.deshred ledger slot f).1 (out ++ (σ.deshred ledger slot f).2.toList)) :
    P ((runs ledger calls).machine.slots slot) ((runs ledger calls).emittedFor slot) := by
  induction calls using List.reverseRecOn with
  | nil => exact h
  | append_singleton calls c ih =>
      have hprev := ih fun σ out s σ' hs => by
        rcases hs with ⟨c', hc', hs⟩
        exact hingest σ out s σ' ⟨c', List.mem_append_left _ hc', hs⟩
      have hstep := @runs_concat_slot ledger calls c slot
      rw [Prod.mk.injEq] at hstep
      rw [hstep.1, hstep.2]
      have hsource : ∀ s ∈ (runs ledger calls).machine.offered ledger (c.shreds ledger) slot,
          s ∈ c.shreds ledger ∧ s.slot = slot := by
        intro s hs
        have hmem := (offered_sublist _ _ _).subset hs
        simpa using List.mem_filter.mp hmem
      have hbound : ∀ f,
          (∃ s ∈ (runs ledger calls).machine.offered ledger (c.shreds ledger) slot,
            s.fecSetIndex = f) → f < maxDataShredsPerSlot := by
        rintro f ⟨s, hs, rfl⟩
        exact (Call.admitted_of_mem (hsource s hs).1).fecSetIndex_lt
      refine SlotState.process_invariant _ hprev ?_ ?_ ?_
      · intro σ out s σ' hs
        exact hingest σ out s σ' ⟨c, by simp, (hsource s hs).1⟩ (hsource s hs).2
      · exact fun σ out f hf => hrecover σ out c.order f (hbound f hf)
      · exact fun σ out f hf => hdeshred σ out f (hbound f hf)

end Machine

end ShredstreamProxy
