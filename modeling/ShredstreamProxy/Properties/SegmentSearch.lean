import ShredstreamProxy.Slot.Refinement

/-!
# The documented segment

The search for the segment around an index, stated over the vectors of a tracker as they are,
whatever they hold.  The two scans of the code compute exactly the range that the documentation of
the search describes, and they never read outside of the vectors.

Main results:

- Theorem {lit}`DocumentedSegment.iff_isSegment`: the description over the vectors, and over the
  line of cells that the scans walk on.
- Theorem {lit}`getIndexes_eq_documented`: the search returns the described range, if there is one.
-/

namespace ShredstreamProxy

open Segment

variable {t : ShredsStateTracker} {i a e : Nat} {u : Bool}

/-- The segment around index `i`, as the documentation describes it: it ends with the first
complete shred at or after the index, starts where the run of shreds that are not complete does,
and contains nothing that was deshredded before.  Its start is a guess when the position before it
is unknown. -/
structure DocumentedSegment (t : ShredsStateTracker) (i a e : Nat) (u : Bool) : Prop where
  index_lt : i < t.dataStatus.length
  end_least : IsLeast {j | i ≤ j ∧ t.dataStatus[j]? = some .dataComplete} e
  right_inner : ∀ j, i ≤ j → j < e → t.dataStatus[j]? = some .notDataComplete
  right_fresh : ∀ j, i ≤ j → j ≤ e → t.alreadyDeshredded[j]? = some false
  start_least :
    IsLeast {k | k ≤ i ∧ ∀ j, k ≤ j → j < i → t.dataStatus[j]? = some .notDataComplete} a
  left_fresh : ∀ j, a ≤ j → j < i → t.alreadyDeshredded[j]? = some false
  unknown : u = true ↔ 0 < a ∧ t.dataStatus[a - 1]? = some .unknown

/-! ## The line of a tracker -/

/-- An inner position has the status of a shred that completes nothing. -/
theorem ShredsStateTracker.inner_iff {j : Nat} :
    t.line.Inner j ↔ t.dataStatus[j]? = some .notDataComplete := by
  rcases hs : t.dataStatus[j]? with _ | _ | _ | _ <;> simp [Line.Inner, line, hs]

/-- A closing position has the status of a completing shred. -/
theorem ShredsStateTracker.closing_iff {j : Nat} :
    t.line.Closing j ↔ t.dataStatus[j]? = some .dataComplete := by
  rcases hs : t.dataStatus[j]? with _ | _ | _ | _ <;> simp [Line.Closing, line, hs]

/-- A position is unknown when its status says so. -/
theorem ShredsStateTracker.unknown_iff {j : Nat} (h : j < t.dataStatus.length) :
    t.line.known j = false ↔ t.dataStatus[j]? = some .unknown := by
  simp [line, h]

/-- A position is unused when its flag is not set. -/
theorem ShredsStateTracker.fresh_iff {j : Nat} (h : j < t.alreadyDeshredded.length) :
    t.line.used j = false ↔ t.alreadyDeshredded[j]? = some false := by
  simp [line, h]

/-! ## The description and the line -/

theorem DocumentedSegment.end_lt (h : DocumentedSegment t i a e u) : e < t.dataStatus.length :=
  (List.getElem?_eq_some_iff.mp h.end_least.1.2).1

/-- The described segment is the segment on the line of cells. -/
theorem DocumentedSegment.isSegment (hlen : t.dataStatus.length = t.alreadyDeshredded.length)
    (h : DocumentedSegment t i a e u) : IsSegment t.line t.dataStatus.length i a e u := by
  have hend := h.end_lt
  refine ⟨h.start_least.1.1, h.end_least.1.1, hend, ?_, ?_, ?_, ?_, ?_⟩
  · exact ShredsStateTracker.closing_iff.mpr h.end_least.1.2
  · intro j h₁ h₂
    rw [ShredsStateTracker.inner_iff]
    rcases Nat.lt_or_ge j i with hj | hj
    · exact h.start_least.1.2 j h₁ hj
    · exact h.right_inner j hj h₂
  · intro j h₁ h₂
    rw [ShredsStateTracker.fresh_iff (by omega)]
    rcases Nat.lt_or_ge j i with hj | hj
    · exact h.left_fresh j h₁ hj
    · exact h.right_fresh j hj h₂
  · -- one more position to the left would still be a run up to the index
    intro hpos hinner
    have hprev : a ≤ a - 1 := by
      apply h.start_least.2
      refine ⟨(Nat.sub_le a 1).trans h.start_least.1.1, ?_⟩
      intro j h₁ h₂
      rcases Nat.eq_or_lt_of_le h₁ with rfl | h₁
      · exact ShredsStateTracker.inner_iff.mp hinner
      · exact h.start_least.1.2 j (by omega) h₂
    omega
  · rw [h.unknown]
    have hstart := h.start_least.1.1
    have hindex := h.index_lt
    constructor
    · rintro ⟨hpos, hunknown⟩
      exact ⟨hpos, (ShredsStateTracker.unknown_iff (by omega)).mpr hunknown⟩
    · rintro ⟨hpos, hunknown⟩
      exact ⟨hpos, (ShredsStateTracker.unknown_iff (by omega)).mp hunknown⟩

/-- A run of cells up to the index starts no earlier than the segment. -/
theorem start_le_of_inner {n k : Nat} {L : Line} (h : IsSegment L n i a e u)
    (hrun : ∀ j, k ≤ j → j < i → L.Inner j) : a ≤ k := by
  by_contra hlt
  have hstart := h.start_le
  exact h.least (by omega) (hrun (a - 1) (by omega) (by omega))

/-- A segment of the line is one as documented. -/
theorem documentedSegment_of_isSegment
    (hlen : t.dataStatus.length = t.alreadyDeshredded.length)
    (h : IsSegment t.line t.dataStatus.length i a e u) : DocumentedSegment t i a e u := by
  have hstart := h.start_le
  have hle := h.le_end
  have hend := h.end_lt
  refine ⟨by omega, ⟨⟨hle, ?_⟩, ?_⟩, ?_, ?_, ⟨⟨hstart, ?_⟩, ?_⟩, ?_, ?_⟩
  · exact ShredsStateTracker.closing_iff.mp h.closing
  · rintro j ⟨h₁, h₂⟩
    by_contra hlt
    have hinner := ShredsStateTracker.inner_iff.mp (h.inner j (by omega) (by omega))
    rw [h₂] at hinner
    contradiction
  · intro j h₁ h₂
    exact ShredsStateTracker.inner_iff.mp (h.inner j (by omega) h₂)
  · intro j h₁ h₂
    exact (ShredsStateTracker.fresh_iff (by omega)).mp (h.fresh j (by omega) h₂)
  · intro j h₁ h₂
    exact ShredsStateTracker.inner_iff.mp (h.inner j h₁ (by omega))
  · rintro k ⟨_, hrun⟩
    exact start_le_of_inner h fun j h₁ h₂ => ShredsStateTracker.inner_iff.mpr (hrun j h₁ h₂)
  · intro j h₁ h₂
    exact (ShredsStateTracker.fresh_iff (by omega)).mp (h.fresh j h₁ (by omega))
  · rw [h.unknown]
    constructor
    · rintro ⟨hpos, hunknown⟩
      exact ⟨hpos, (ShredsStateTracker.unknown_iff (by omega)).mp hunknown⟩
    · rintro ⟨hpos, hunknown⟩
      exact ⟨hpos, (ShredsStateTracker.unknown_iff (by omega)).mpr hunknown⟩

/-- The documented segments are those of the line. -/
theorem DocumentedSegment.iff_isSegment
    (hlen : t.dataStatus.length = t.alreadyDeshredded.length) :
    DocumentedSegment t i a e u ↔ IsSegment t.line t.dataStatus.length i a e u :=
  ⟨fun h => h.isSegment hlen, documentedSegment_of_isSegment hlen⟩

/-- With a known start, the segment starts the vector or follows a complete shred. -/
theorem DocumentedSegment.start_known (h : DocumentedSegment t i a e u) (hu : u = false) :
    a = 0 ∨ t.dataStatus[a - 1]? = some .dataComplete := by
  rcases Nat.eq_zero_or_pos a with hzero | hpos
  · exact Or.inl hzero
  · refine Or.inr ?_
    have hstart := h.start_least.1.1
    have hlt : a - 1 < t.dataStatus.length := by
      have := h.index_lt
      omega
    rcases hs : t.dataStatus[a - 1]? with _ | _ | _ | _
    · exact absurd (List.getElem?_eq_none_iff.mp hs) (by omega)
    · have hguess : u = true := h.unknown.mpr ⟨hpos, hs⟩
      rw [hu] at hguess
      contradiction
    · -- then the run would start earlier
      have hprev : a ≤ a - 1 := by
        apply h.start_least.2
        refine ⟨by omega, ?_⟩
        intro j h₁ h₂
        rcases Nat.eq_or_lt_of_le h₁ with rfl | h₁
        · exact hs
        · exact h.start_least.1.2 j (by omega) h₂
      omega
    · rfl

/-! ## The code -/

/-- On vectors of equal length the search never panics; it returns the described segment, or
nothing when there is none; and a known start is the start of the vector or follows a complete
shred. -/
theorem getIndexes_eq_documented (t : ShredsStateTracker)
    (hlen : t.dataStatus.length = t.alreadyDeshredded.length) (i : Nat) :
    (∀ a e u, getIndexes t i = .ok (some (a, e, u)) ↔ DocumentedSegment t i a e u) ∧
      ((¬ ∃ a e u, DocumentedSegment t i a e u) → getIndexes t i = .ok none) ∧
      (∃ r, getIndexes t i = .ok r) ∧
      ∀ a e, getIndexes t i = .ok (some (a, e, false)) →
        a = 0 ∨ t.dataStatus[a - 1]? = some .dataComplete := by
  have hcode := getIndexes_eq_segmentAt hlen i
  have hiff : ∀ a e u, getIndexes t i = .ok (some (a, e, u)) ↔ DocumentedSegment t i a e u := by
    intro a e u
    rw [DocumentedSegment.iff_isSegment hlen, ← segmentAt_eq_some_iff, hcode]
    exact ⟨Except.ok.inj, congrArg Except.ok⟩
  refine ⟨hiff, ?_, ⟨_, hcode⟩, ?_⟩
  · intro hnone
    rcases hr : segmentAt t.line t.dataStatus.length i with _ | ⟨a, e, u⟩
    · rw [hcode, hr]
    · exact absurd ⟨a, e, u, (hiff a e u).mp (by rw [hcode, hr])⟩ hnone
  · intro a e hr
    exact ((hiff a e false).mp hr).start_known rfl

/-- A segment after a complete shred, searched from its middle. -/
theorem getIndexes_eq_documented_sample :
    DocumentedSegment ⟨[.dataComplete, .notDataComplete, .notDataComplete, .dataComplete], [], [],
      List.replicate 4 false⟩ 2 1 3 false := by
  apply ((getIndexes_eq_documented _ rfl 2).1 1 3 false).mp
  rw [getIndexes_eq_segmentAt rfl]
  rfl

end ShredstreamProxy
