import ShredstreamProxy.Slot.Invariant

/-!
# The code on one slot refines the total machine

A tracker is well formed when its four vectors have the full length and the status
vector says what the shred vector holds.  On well-formed trackers no access of the code
is out of range, and each operation of the code returns what the total operation of
{lit}`Slot/State` computes on the view of the entry.

Main results:

- Theorem {lit}`getIndexes_eq_segmentAt`: the two loops of {lit}`getIndexes` are the two
  scans of the segment library, for vectors of any equal length.
- Theorem {lit}`ingestShred_refines`, {lit}`recoverFecSet_refines` and
  {lit}`deshredFecSet_refines`: the three phases on one entry never panic and refine the
  total operations.
- Theorem {lit}`SlotEntry.view_injective`: a well-formed entry is determined by its view.
-/

namespace ShredstreamProxy

open Exec Segment

/-! ## Views -/

/-- The status that belongs to the contents of a position. -/
def statusOf : Option Shred → ShredStatus
  | none => .unknown
  | some s => if s.completes then .dataComplete else .notDataComplete

namespace ShredsStateTracker

/-- All vectors have the full length, and the status vector matches the stored shreds. -/
structure WF (t : ShredsStateTracker) : Prop where
  status : t.dataStatus = t.dataShreds.map statusOf
  dataShreds_length : t.dataShreds.length = maxDataShredsPerSlot
  recovered_length : t.alreadyRecoveredFecSets.length = maxDataShredsPerSlot
  deshredded_length : t.alreadyDeshredded.length = maxDataShredsPerSlot

theorem wf_default : WF ShredsStateTracker.default := by
  constructor <;> simp [ShredsStateTracker.default, statusOf]

/-- The total view of a tracker beside given erasure sets. -/
def view (t : ShredsStateTracker) (fecSets : FecSetIndex → Option (List Shred)) : SlotState where
  fecSets := fecSets
  dataShreds i := t.dataShreds[i]?.join
  recovered f := t.alreadyRecoveredFecSets[f]?.getD false
  deshredded i := t.alreadyDeshredded[i]?.getD false

/-- The positions of a tracker as a line of cells. -/
def line (t : ShredsStateTracker) : Line where
  known i := t.dataStatus[i]?.getD .unknown ≠ .unknown
  close i := t.dataStatus[i]?.getD .unknown = .dataComplete
  used i := t.alreadyDeshredded[i]?.getD false

variable {t : ShredsStateTracker} {fecSets : FecSetIndex → Option (List Shred)}

theorem line_known_of_lt {i : Nat} (h : i < t.dataStatus.length) :
    t.line.known i = decide (t.dataStatus[i] ≠ .unknown) := by
  simp [line, h]

theorem line_close_of_lt {i : Nat} (h : i < t.dataStatus.length) :
    t.line.close i = decide (t.dataStatus[i] = .dataComplete) := by
  simp [line, h]

theorem line_used_of_lt {i : Nat} (h : i < t.alreadyDeshredded.length) :
    t.line.used i = t.alreadyDeshredded[i] := by
  simp [line, h]

theorem WF.dataStatus_length (h : t.WF) : t.dataStatus.length = maxDataShredsPerSlot := by
  rw [h.status, List.length_map, h.dataShreds_length]

/-- The line of a tracker is that of its view. -/
theorem WF.line_eq (h : t.WF) : t.line = (t.view fecSets).line := by
  have hstatus : ∀ i : Nat, t.dataStatus[i]?.getD .unknown = statusOf t.dataShreds[i]?.join := by
    intro i
    rw [h.status, List.getElem?_map]
    cases t.dataShreds[i]? <;> rfl
  simp only [line, view, SlotState.line, hstatus, Line.mk.injEq, and_true]
  constructor
  · funext i
    cases hs : t.dataShreds[i]?.join with
    | none => rfl
    | some s => cases hc : s.completes <;> simp [statusOf, hc]
  · funext i
    cases hs : t.dataShreds[i]?.join with
    | none => rfl
    | some s => cases hc : s.completes <;> simp [statusOf, hc]

end ShredsStateTracker

namespace SlotEntry

/-- The total view of an entry. -/
def view (entry : SlotEntry) : SlotState :=
  entry.stateTracker.view fun f => entry.fecSets[f]?

def WF (entry : SlotEntry) : Prop := entry.stateTracker.WF

theorem wf_default : WF SlotEntry.default := ShredsStateTracker.wf_default

theorem view_default : SlotEntry.default.view = SlotState.initial := by
  simp only [view, ShredsStateTracker.view, SlotEntry.default, ShredsStateTracker.default,
    SlotState.initial, SlotState.mk.injEq]
  refine ⟨?_, ?_, ?_, ?_⟩ <;> funext i
  · simp
  · by_cases h : i < maxDataShredsPerSlot <;> simp [h]
  · by_cases h : i < maxDataShredsPerSlot <;> simp [h]
  · by_cases h : i < maxDataShredsPerSlot <;> simp [h]

end SlotEntry

/-! ## The segment search -/

section GetIndexes

variable {t : ShredsStateTracker}

/-- The scan of the code for the end is the scan on the line, within the bounds. -/
theorem findEnd_eq_scanRight (hlen : t.dataStatus.length = t.alreadyDeshredded.length)
    {left last : Nat} (h : last + left = t.dataStatus.length) :
    findEnd t left last = .ok (scanRight t.line left last) := by
  induction left generalizing last with
  | zero => rfl
  | succ left ih =>
      have hlt : last < t.dataStatus.length := by omega
      have hlt' : last < t.alreadyDeshredded.length := by omega
      rw [findEnd, scanRight, index_of_getElem? (List.getElem?_eq_getElem hlt')]
      simp only [ok_bind, ShredsStateTracker.line_known_of_lt hlt,
        ShredsStateTracker.line_close_of_lt hlt, ShredsStateTracker.line_used_of_lt hlt']
      split
      · rfl
      · rw [index_of_getElem? (List.getElem?_eq_getElem hlt)]
        simp only [ok_bind]
        cases hstatus : t.dataStatus[last] with
        | unknown => simp
        | dataComplete => simp
        | notDataComplete => simpa using @ih (last + 1) (by omega)

/-- The scan of the code for the start is the scan on the line, within the bounds. -/
theorem findStart_eq_scanLeft (hlen : t.dataStatus.length = t.alreadyDeshredded.length)
    {last next : Nat} (h : next < t.dataStatus.length) :
    findStart t last (next + 1) next =
      .ok ((scanLeft t.line (next + 1)).map fun p => (p.1, last, p.2)) := by
  induction next with
  | zero =>
      have hlt' : 0 < t.alreadyDeshredded.length := hlen ▸ h
      rw [findStart, scanLeft, index_of_getElem? (List.getElem?_eq_getElem h)]
      simp only [ok_bind, ShredsStateTracker.line_known_of_lt h,
        ShredsStateTracker.line_close_of_lt h, ShredsStateTracker.line_used_of_lt hlt']
      cases hstatus : t.dataStatus[0] with
      | unknown => simp
      | dataComplete => simp
      | notDataComplete =>
          simp only [index_of_getElem? (List.getElem?_eq_getElem hlt'), ok_bind]
          cases hused : t.alreadyDeshredded[0] <;> simp [scanLeft]
  | succ next ih =>
      have hlt' : next + 1 < t.alreadyDeshredded.length := hlen ▸ h
      rw [findStart, scanLeft, index_of_getElem? (List.getElem?_eq_getElem h)]
      simp only [ok_bind, ShredsStateTracker.line_known_of_lt h,
        ShredsStateTracker.line_close_of_lt h, ShredsStateTracker.line_used_of_lt hlt']
      cases hstatus : t.dataStatus[next + 1] with
      | unknown => simp
      | dataComplete => simp
      | notDataComplete =>
          simp only [index_of_getElem? (List.getElem?_eq_getElem hlt'), ok_bind]
          cases hused : t.alreadyDeshredded[next + 1] with
          | true => simp
          | false => simpa using ih (Nat.lt_of_succ_lt h)

/-- The loops of the code compute the segment around the index, for vectors of any equal
length. -/
theorem getIndexes_eq_segmentAt (hlen : t.dataStatus.length = t.alreadyDeshredded.length)
    (i : Nat) : getIndexes t i = .ok (segmentAt t.line t.dataStatus.length i) := by
  unfold getIndexes segmentAt
  split
  · rfl
  · rename_i hi
    rw [findEnd_eq_scanRight hlen (by omega)]
    simp only [ok_bind]
    cases hscan : scanRight t.line (t.dataStatus.length - i) i with
    | none => rfl
    | some last =>
        have hle : i ≤ last := ((scanRight_eq_some_iff _ _ _).mp hscan).le_end
        cases i with
        | zero => by_cases hlast : last = 0 <;> simp [hlast, scanLeft]
        | succ next =>
            have hlast : last ≠ 0 := by omega
            simp only [hlast, if_false, Nat.succ_ne_zero, Nat.add_sub_cancel]
            rw [findStart_eq_scanLeft hlen (by omega)]

/-- On a well-formed tracker the two scans find the segment at an index. -/
theorem ShredsStateTracker.WF.getIndexes_eq (h : t.WF)
    (fecSets : FecSetIndex → Option (List Shred)) (i : Nat) :
    getIndexes t i = .ok (segmentAt (t.view fecSets).line maxDataShredsPerSlot i) := by
  have hlen : t.dataStatus.length = t.alreadyDeshredded.length :=
    h.dataStatus_length.trans h.deshredded_length.symm
  rw [getIndexes_eq_segmentAt hlen, h.dataStatus_length, h.line_eq]

end GetIndexes

/-! ## Recording shreds -/

section Record

variable {t : ShredsStateTracker} (fecSets : FecSetIndex → Option (List Shred))

/-- Reading a list of flags after one of them is set. -/
theorem getD_getElem?_set {v : List Bool} {i j : Nat} {b : Bool} (h : i < v.length) :
    (v.set i b)[j]?.getD false = if j = i then b else v[j]?.getD false := by
  rw [List.getElem?_set]
  by_cases hj : i = j
  · subst hj
    simp [h]
  · simp [hj, Ne.symm hj]

/-- Flagging a set in the tracker flags it in the view. -/
theorem view_set_recovered {i : Nat} (h : i < t.alreadyRecoveredFecSets.length) :
    ShredsStateTracker.view
        { t with alreadyRecoveredFecSets := t.alreadyRecoveredFecSets.set i true } fecSets =
      { t.view fecSets with recovered := Function.update (t.view fecSets).recovered i true } := by
  simp only [ShredsStateTracker.view, SlotState.mk.injEq, true_and, and_true]
  funext f
  rw [getD_getElem?_set h, Function.update_apply]

/-- Setting a flag of a set keeps a tracker well formed. -/
theorem ShredsStateTracker.WF.set_recovered (h : t.WF) (i : Nat) (b : Bool) :
    WF { t with alreadyRecoveredFecSets := t.alreadyRecoveredFecSets.set i b } :=
  ⟨h.status, h.dataShreds_length, by simpa using h.recovered_length, h.deshredded_length⟩

/-- Within the bounds, the code reads the flag of a set. -/
theorem index_recovered (h : t.WF) {f : FecSetIndex} (hf : f < maxDataShredsPerSlot) :
    index t.alreadyRecoveredFecSets f = .ok ((t.view fecSets).recovered f) := by
  have hlt : f < t.alreadyRecoveredFecSets.length := h.recovered_length ▸ hf
  rw [index_of_getElem? (List.getElem?_eq_getElem hlt)]
  simp [ShredsStateTracker.view, hlt]

/-- Within the bounds, the code reads the flag of a position. -/
theorem index_deshredded (h : t.WF) {i : Nat} (hi : i < maxDataShredsPerSlot) :
    index t.alreadyDeshredded i = .ok ((t.view fecSets).deshredded i) := by
  have hlt : i < t.alreadyDeshredded.length := h.deshredded_length ▸ hi
  rw [index_of_getElem? (List.getElem?_eq_getElem hlt)]
  simp [ShredsStateTracker.view, hlt]

/-- Within the bounds, the code reads the data shred at a position. -/
theorem index_dataShreds (h : t.WF) {i : Nat} (hi : i < maxDataShredsPerSlot) :
    index t.dataShreds i = .ok ((t.view fecSets).dataShreds i) := by
  have hlt : i < t.dataShreds.length := h.dataShreds_length ▸ hi
  rw [index_of_getElem? (List.getElem?_eq_getElem hlt)]
  simp [ShredsStateTracker.view, hlt]

/-- Within the bounds, the code reads the status that the data shred has. -/
theorem index_dataStatus (h : t.WF) {i : Nat} (hi : i < maxDataShredsPerSlot) :
    index t.dataStatus i = .ok (statusOf ((t.view fecSets).dataShreds i)) := by
  have hlt : i < t.dataShreds.length := h.dataShreds_length ▸ hi
  apply index_of_getElem?
  simp [ShredsStateTracker.view, h.status, hlt]

/-- Recording an admitted shred never panics and refines the total operation. -/
theorem updateStateTracker_refines (h : t.WF) {s : Shred} (hs : s.Admitted) :
    ∃ o, updateStateTracker s t = .ok o ∧ (∀ p, o = some p → p.2.WF) ∧
      (o.map fun p => p.2.view fecSets) = (t.view fecSets).record s := by
  unfold updateStateTracker SlotState.record
  rw [index_recovered fecSets h hs.fecSetIndex_lt]
  simp only [ok_bind]
  cases hrec : (t.view fecSets).recovered s.fecSetIndex with
  | true => exact ⟨none, by simp⟩
  | false =>
      cases s with
      | shredCode c => exact ⟨some ((Shred.shredCode c).index, t), by simp [h]⟩
      | shredData d =>
          have hi := hs.index_lt
          have hlt : (Shred.shredData d).index < t.dataShreds.length := h.dataShreds_length ▸ hi
          have hlt' : (Shred.shredData d).index < t.dataStatus.length := h.dataStatus_length ▸ hi
          simp only [Bool.false_eq_true, if_false, index_dataShreds fecSets h hi,
            index_dataStatus fecSets h hi, ok_bind]
          cases hpos : (t.view fecSets).dataShreds (Shred.shredData d).index with
          | some u => exact ⟨none, by simp⟩
          | none =>
              simp only [Option.isSome_none, Bool.false_eq_true, if_false, statusOf, ne_eq,
                not_true_eq_false, store_of_lt hlt, store_of_lt hlt', ok_bind, pure_eq_ok]
              refine ⟨_, rfl, ?_, ?_⟩
              · rintro p hp
                obtain rfl := Option.some.inj hp
                refine ⟨?_, by simpa using h.dataShreds_length, h.recovered_length,
                  h.deshredded_length⟩
                simp only [h.status, List.map_set, statusOf]
                rfl
              · simp only [Option.map_some, Option.some.injEq, ShredsStateTracker.view,
                  SlotState.mk.injEq, true_and, and_true]
                funext j
                rw [List.getElem?_set, Function.update_apply]
                by_cases hj : (Shred.shredData d).index = j
                · subst hj
                  simp [hlt]
                · simp [hj, Ne.symm hj]

/-- The loop over the answer of recovery records it, and does not panic. -/
theorem foldlM_recordRecovered_refines (h : t.WF) {items : List (Option Shred)}
    (hitems : ∀ s, some s ∈ items → s.Admitted) (n : Nat) :
    ∃ r, items.foldlM recordRecovered (t, n) = .ok r ∧ r.1.WF ∧
      (r.1.view fecSets, r.2) = items.foldl SlotState.recordItem (t.view fecSets, n) := by
  have hloop := foldlM_refines (l := items) (f := recordRecovered) (g := SlotState.recordItem)
    (R := fun p q => p.1.WF ∧ (p.1.view fecSets, p.2) = q) (b := (t, n))
    (c := (t.view fecSets, n)) ?_ ⟨h, rfl⟩
  · exact hloop
  · rintro ⟨t, n⟩ q item hmem ⟨hwf, rfl⟩
    cases item with
    | none => exact ⟨(t, n), rfl, hwf, rfl⟩
    | some s =>
        rcases updateStateTracker_refines fecSets hwf (hitems s hmem) with
          ⟨o, ho, hwf', hview⟩
        cases o with
        | none =>
            refine ⟨(t, n), by simp [recordRecovered, ho], hwf, ?_⟩
            simp [SlotState.recordItem, ← hview]
        | some p =>
            refine ⟨(p.2, n + 1), by simp [recordRecovered, ho], hwf' p rfl, ?_⟩
            simp [SlotState.recordItem, ← hview]

end Record

/-! ## The phases on one entry -/

section Entry

variable {entry : SlotEntry} {ledger : Ledger} {order : IterOrder}

/-- Replacing a bucket of an entry replaces it in the view. -/
theorem view_insert_fecSets (m : Std.ExtTreeMap FecSetIndex (List Shred)) (f : FecSetIndex)
    (l : List Shred) (t : ShredsStateTracker) :
    SlotEntry.view { fecSets := m.insert f l, stateTracker := t } =
      { t.view (fun g => m[g]?) with fecSets := Function.update (fun g => m[g]?) f (some l) } := by
  simp only [SlotEntry.view, ShredsStateTracker.view, SlotState.mk.injEq, and_true]
  funext g
  rw [Std.ExtTreeMap.getElem?_insert, Function.update_apply]
  by_cases hg : g = f
  · simp [hg]
  · simp [hg, Ne.symm hg]

theorem held_view (f : FecSetIndex) : entry.view.held f = entry.fecSets[f]?.getD [] :=
  rfl

/-- Offering an admitted shred to an entry never panics and refines the total operation. -/
theorem ingestShred_refines (h : entry.WF) {s : Shred} (hs : s.Admitted) :
    ∃ o, ingestShred ledger entry s = .ok o ∧ (∀ e, o = some e → e.WF) ∧
      o.map SlotEntry.view = entry.view.ingest ledger s := by
  unfold ingestShred SlotState.ingest
  rw [index_recovered (fun g => entry.fecSets[g]?) h hs.fecSetIndex_lt]
  simp only [ok_bind]
  change ∃ o, (if entry.view.recovered s.fecSetIndex = true then _ else _) = _ ∧ _
  cases hrec : entry.view.recovered s.fecSetIndex with
  | true => exact ⟨none, by simp⟩
  | false =>
      simp only [Bool.false_eq_true, if_false, Bool.false_or]
      rw [index_deshredded (fun g => entry.fecSets[g]?) h hs.index_lt]
      simp only [ok_bind]
      change ∃ o, (if entry.view.deshredded s.index = true then _ else _) = _ ∧ _
      cases hdes : entry.view.deshredded s.index with
      | true => exact ⟨none, by simp⟩
      | false =>
          simp only [Bool.false_eq_true, if_false]
          rcases updateStateTracker_refines (fun g => entry.fecSets[g]?) h hs with
            ⟨o, ho, hwf, hview⟩
          change _ = entry.view.record s at hview
          rw [ho]
          cases o with
          | none => exact ⟨none, by simp [← hview]⟩
          | some p =>
              refine ⟨some ⟨_, p.2⟩, rfl, ?_, ?_⟩
              · rintro e he
                obtain rfl := Option.some.inj he
                exact hwf p rfl
              · rw [← hview]
                simp only [Option.map_some, view_insert_fecSets]
                rfl

/-- A recovery attempt on an entry never panics and refines the total operation. -/
theorem recoverFecSet_refines {slot : Slot} {f : FecSetIndex} (h : entry.WF)
    (hinv : entry.view.Inv slot) (hf : f < maxDataShredsPerSlot) :
    ∃ r, recoverFecSet ledger order f entry = .ok r ∧ r.1.WF ∧
      (r.1.view, r.2) = entry.view.recover ledger order f := by
  have htouch : SlotEntry.view { entry with
      fecSets := entry.fecSets.insert f (entry.fecSets[f]?.getD []) } = entry.view.touch f :=
    view_insert_fecSets entry.fecSets f _ _
  simp only [recoverFecSet]
  rw [SlotState.recover, held_view]
  cases hneeds : needsRecovery (getDataShredInfo (order.iter (entry.fecSets[f]?.getD [])))
      (entry.fecSets[f]?.getD []).length with
  | false => exact ⟨(_, 0), rfl, h, by simpa using htouch⟩
  | true =>
      simp only [if_true]
      cases hanswer : ledger.recover (sortForRecovery (order.iter (entry.fecSets[f]?.getD []))) with
      | none => exact ⟨(_, 0), rfl, h, by simpa using htouch⟩
      | some items =>
          have hadm : ∀ s, some s ∈ items → s.Admitted :=
            fun s hs => (hinv.answer_admitted hneeds hanswer hs).1
          rcases foldlM_recordRecovered_refines (entry.view.touch f).fecSets h hadm 0 with
            ⟨⟨t, n⟩, hloop, hwf, hview⟩
          have hstart : entry.stateTracker.view (entry.view.touch f).fecSets =
              entry.view.touch f := rfl
          rw [hstart] at hview
          simp only [hloop, ok_bind, SlotState.absorb, ← hview]
          by_cases hpos : 0 < n
          · have hlt : f < t.alreadyRecoveredFecSets.length := hwf.recovered_length ▸ hf
            simp only [hpos, if_true, store_of_lt hlt, ok_bind]
            refine ⟨_, rfl, hwf.set_recovered f true, ?_⟩
            simp only [Prod.mk.injEq, and_true, SlotState.finish]
            rw [view_insert_fecSets, view_set_recovered _ hlt]
            simp only [ShredsStateTracker.view, SlotState.mk.injEq, and_true]
            funext g
            by_cases hg : g = f
            · simp [hg]
            · simp [hg, SlotState.touch, SlotEntry.view, ShredsStateTracker.view,
                Std.ExtTreeMap.getElem?_insert, Ne.symm hg]
          · simp only [hpos, if_false]
            refine ⟨_, rfl, hwf, ?_⟩
            simp only [Prod.mk.injEq, and_true]
            exact view_insert_fecSets entry.fecSets f _ _

end Entry

/-! ## Deshredding one entry -/

section Deshred

variable {t : ShredsStateTracker} (fecSets : FecSetIndex → Option (List Shred)) {ledger : Ledger}
  {slot : Slot}

/-- Unwrapping values that are all there returns them. -/
theorem mapM_unwrap_map_some (l : List Shred) : (l.map some).mapM unwrap = .ok l := by
  induction l with
  | nil => rfl
  | cons s l ih => simp [List.mapM_cons, unwrap, ih]

/-- A range of filled positions, read as a slice. -/
theorem take_drop_eq_map_some {v : List (Option Shred)} {a n : Nat} (h : a + n ≤ v.length)
    (hfull : ∀ j, a ≤ j → j < a + n → ∃ s, v[j]?.join = some s) :
    (v.drop a).take n = ((List.range' a n).filterMap fun j => v[j]?.join).map some := by
  induction n generalizing a with
  | zero => simp
  | succ n ih =>
      have hlt : a < v.length := by omega
      rcases hfull a le_rfl (by omega) with ⟨s, hs⟩
      have hget : v[a] = some s := by simpa [hlt] using hs
      have hrest := ih (a := a + 1) (by omega) fun j h₁ h₂ => hfull j (by omega) (by omega)
      rw [List.drop_eq_getElem_cons hlt, List.take_succ_cons, hrest, List.range'_succ,
        List.filterMap_cons, hs, hget, List.map_cons]

/-- Marking shreds never panics and flags their positions and sets. -/
theorem foldlM_markDeshredded {l : List Shred} (h : t.WF) (hl : ∀ s ∈ l, s.Admitted) :
    ∃ t', (l.map some).foldlM markDeshredded t = .ok t' ∧ t'.WF ∧
      t'.view fecSets =
        { t.view fecSets with
          recovered := fun f => (t.view fecSets).recovered f || l.any fun s => s.fecSetIndex = f
          deshredded := fun j => (t.view fecSets).deshredded j || l.any fun s => s.index = j } := by
  induction l generalizing t with
  | nil => exact ⟨t, rfl, h, by simp⟩
  | cons s l ih =>
      have hs := hl s List.mem_cons_self
      have hf : s.fecSetIndex < t.alreadyRecoveredFecSets.length :=
        h.recovered_length ▸ hs.fecSetIndex_lt
      have hi : s.index < t.alreadyDeshredded.length := h.deshredded_length ▸ hs.index_lt
      have hwf : ShredsStateTracker.WF
          { t with
            alreadyRecoveredFecSets := t.alreadyRecoveredFecSets.set s.fecSetIndex true
            alreadyDeshredded := t.alreadyDeshredded.set s.index true } :=
        ⟨h.status, h.dataShreds_length, by simpa using h.recovered_length,
          by simpa using h.deshredded_length⟩
      rcases ih hwf fun s hs => hl s (List.mem_cons_of_mem _ hs) with ⟨t', ht', hwf', hview⟩
      refine ⟨t', ?_, hwf', ?_⟩
      · rw [List.map_cons, List.foldlM_cons, markDeshredded, store_of_lt hf, store_of_lt hi]
        exact ht'
      · rw [hview]
        simp only [ShredsStateTracker.view, SlotState.mk.injEq, true_and]
        constructor
        · funext f
          rw [getD_getElem?_set hf]
          by_cases hfs : f = s.fecSetIndex
          · simp [hfs]
          · simp [hfs, Ne.symm hfs]
        · funext j
          rw [getD_getElem?_set hi]
          by_cases hj : j = s.index
          · simp [hj]
          · simp [hj, Ne.symm hj]

/-- A deshred attempt on an entry never panics and refines the total operation. -/
theorem deshredFecSet_refines (h : t.WF) (hinv : (t.view fecSets).Inv slot) (f : FecSetIndex) :
    ∃ r, deshredFecSet ledger slot f t = .ok r ∧ r.1.WF ∧
      (r.1.view fecSets, r.2.1) = (t.view fecSets).deshred ledger slot f := by
  unfold deshredFecSet SlotState.deshred
  rw [h.getIndexes_eq fecSets]
  simp only [ok_bind]
  cases hat : segmentAt (t.view fecSets).line maxDataShredsPerSlot f with
  | none => exact ⟨_, rfl, h, rfl⟩
  | some p =>
      rcases p with ⟨a, e, u⟩
      have hseg := (segmentAt_eq_some_iff _ _ _ _ _).mp hat
      have hae : a ≤ e := hseg.start_le.trans hseg.le_end
      have helt : e < t.dataShreds.length := h.dataShreds_length ▸ hseg.end_lt
      have hslice : (t.dataShreds.drop a).take (e + 1 - a) =
          ((t.view fecSets).shredsIn a e).map some :=
        take_drop_eq_map_some (by omega) fun j h₁ h₂ =>
          SlotState.exists_of_isSegment hseg h₁ (by omega)
      simp only [slice_of_lt hae helt, ok_bind, hslice, mapM_unwrap_map_some, SlotState.decode]
      cases hdeshred : ledger.deshred (((t.view fecSets).shredsIn a e).map Shred.payload) with
      | none => exact ⟨_, rfl, h, rfl⟩
      | some payload =>
          simp only [Option.bind_some]
          cases hdecode : ledger.deserialize payload with
          | none => exact ⟨_, rfl, h, rfl⟩
          | some entries =>
              have hadm : ∀ s ∈ (t.view fecSets).shredsIn a e, s.Admitted := by
                intro s hs
                rcases SlotState.mem_shredsIn.mp hs with ⟨j, _, _, hj⟩
                exact (hinv.stored j s hj).2.2.2
              rcases foldlM_markDeshredded fecSets h hadm with ⟨t', ht', hwf, hview⟩
              simp only [ht', ok_bind]
              refine ⟨_, rfl, hwf, ?_⟩
              simp only [Option.map_some, hview, SlotState.mark, Prod.mk.injEq, and_true,
                SlotState.mk.injEq, true_and]
              funext j
              congr 1
              -- the shreds of the range sit at their own positions
              rw [Bool.eq_iff_iff, decide_eq_true_iff]
              simp only [List.any_eq_true, SlotState.mem_shredsIn, decide_eq_true_eq]
              constructor
              · rintro ⟨s, ⟨i, h₁, h₂, hs⟩, rfl⟩
                rw [(hinv.stored i s hs).2.2.1]
                exact ⟨h₁, h₂⟩
              · rintro ⟨h₁, h₂⟩
                rcases SlotState.exists_of_isSegment hseg h₁ h₂ with ⟨s, hs⟩
                exact ⟨s, ⟨j, h₁, h₂, hs⟩, (hinv.stored j s hs).2.2.1⟩

end Deshred

/-! ## Views determine entries -/

/-- Lists of flags of one length that read the same are the same. -/
theorem eq_of_getD_eq {v w : List Bool} (hlen : v.length = w.length)
    (h : ∀ i : Nat, v[i]?.getD false = w[i]?.getD false) : v = w := by
  refine List.ext_getElem hlen fun i h₁ h₂ => ?_
  simpa [h₁, h₂] using h i

/-- A well-formed tracker is determined by its view. -/
theorem ShredsStateTracker.eq_of_view {t t' : ShredsStateTracker} (h : t.WF) (h' : t'.WF)
    {fecSets fecSets' : FecSetIndex → Option (List Shred)}
    (hshreds : (t.view fecSets).dataShreds = (t'.view fecSets').dataShreds)
    (hrec : (t.view fecSets).recovered = (t'.view fecSets').recovered)
    (hdes : (t.view fecSets).deshredded = (t'.view fecSets').deshredded) : t = t' := by
  rcases t with ⟨status, shreds, recovered, deshredded⟩
  rcases t' with ⟨status', shreds', recovered', deshredded'⟩
  obtain rfl : shreds = shreds' := by
    refine List.ext_getElem (h.dataShreds_length.trans h'.dataShreds_length.symm) fun i h₁ h₂ => ?_
    simpa [h₁, h₂, ShredsStateTracker.view] using congrFun hshreds i
  obtain rfl : recovered = recovered' :=
    eq_of_getD_eq (h.recovered_length.trans h'.recovered_length.symm) fun i => congrFun hrec i
  obtain rfl : deshredded = deshredded' :=
    eq_of_getD_eq (h.deshredded_length.trans h'.deshredded_length.symm) fun i => congrFun hdes i
  obtain rfl : status = status' := h.status.trans h'.status.symm
  rfl

/-- A well-formed entry is determined by its view. -/
theorem SlotEntry.view_injective {entry entry' : SlotEntry} (h : entry.WF) (h' : entry'.WF)
    (heq : entry.view = entry'.view) : entry = entry' := by
  rcases entry with ⟨fecSets, t⟩
  rcases entry' with ⟨fecSets', t'⟩
  obtain rfl : fecSets = fecSets' :=
    Std.ExtTreeMap.ext_getElem? fun f => congrFun (congrArg SlotState.fecSets heq) f
  obtain rfl : t = t' := ShredsStateTracker.eq_of_view h h'
    (congrArg SlotState.dataShreds heq) (congrArg SlotState.recovered heq)
    (congrArg SlotState.deshredded heq)
  rfl

end ShredstreamProxy
