import Mathlib

/-!
# Delimited segments on a line of cells

Cells are numbered from zero.  A known cell is either inner or closing, and some
cells have been used already.  The segment around a position runs from just after
the preceding cell that is not a known inner cell up to the first closing cell at
or after the position; it exists only while every cell to the right is known and
no cell of it has been used.

Main results:

- Theorem {lit}`segmentAt_eq_some_iff`: the two directed scans compute exactly the
  segment described by {lit}`IsSegment`.
-/

namespace Segment

/-- A line of cells. -/
structure Line where
  known : Nat → Bool
  close : Nat → Bool
  used : Nat → Bool

namespace Line

/-- A known cell that does not close a segment. -/
def Inner (L : Line) (j : Nat) : Prop :=
  L.known j = true ∧ L.close j = false

/-- A known cell that closes a segment. -/
def Closing (L : Line) (j : Nat) : Prop :=
  L.known j = true ∧ L.close j = true

end Line

variable {L : Line}

/-! ## The two scans -/

/-- Walk to the right from a position to the first closing cell.  The first
argument is the number of cells left on the line. -/
def scanRight (L : Line) : Nat → Nat → Option Nat
  | 0, _ => none
  | left + 1, e =>
      if L.used e then none
      else if L.known e then
        if L.close e then some e else scanRight L left (e + 1)
      else none

/-- Walk to the left over inner cells from the start found so far.  The result is
the first cell of the segment and whether the cell before it is unknown. -/
def scanLeft (L : Line) : Nat → Option (Nat × Bool)
  | 0 => some (0, false)
  | next + 1 =>
      if L.known next then
        if L.close next then some (next + 1, false)
        else if L.used next then none else scanLeft L next
      else some (next + 1, true)

/-- The segment around position `i` of a line of `n` cells, with the flag that
tells whether the cell before its first one is unknown. -/
def segmentAt (L : Line) (n i : Nat) : Option (Nat × Nat × Bool) :=
  if n ≤ i then none
  else
    match scanRight L (n - i) i with
    | none => none
    | some e => (scanLeft L i).map fun p => (p.1, e, p.2)

/-! ## What the scans compute -/

/-- The right end of the segment seen from position `i`. -/
structure IsRightEnd (L : Line) (n i e : Nat) : Prop where
  le_end : i ≤ e
  end_lt : e < n
  closing : L.Closing e
  inner : ∀ j, i ≤ j → j < e → L.Inner j
  fresh : ∀ j, i ≤ j → j ≤ e → L.used j = false

/-- The left end of the segment that reaches the cell before `start`. -/
structure IsLeftEnd (L : Line) (start a : Nat) (u : Bool) : Prop where
  start_le : a ≤ start
  inner : ∀ j, a ≤ j → j < start → L.Inner j
  fresh : ∀ j, a ≤ j → j < start → L.used j = false
  least : 0 < a → ¬ L.Inner (a - 1)
  unknown : u = true ↔ 0 < a ∧ L.known (a - 1) = false

/-- The segment around position `i`. -/
structure IsSegment (L : Line) (n i a e : Nat) (u : Bool) : Prop where
  start_le : a ≤ i
  le_end : i ≤ e
  end_lt : e < n
  closing : L.Closing e
  inner : ∀ j, a ≤ j → j < e → L.Inner j
  fresh : ∀ j, a ≤ j → j ≤ e → L.used j = false
  least : 0 < a → ¬ L.Inner (a - 1)
  unknown : u = true ↔ 0 < a ∧ L.known (a - 1) = false

/-- The right scan finds the specified right end, and nothing else. -/
theorem scanRight_eq_some_iff (left i e : Nat) :
    scanRight L left i = some e ↔ IsRightEnd L (i + left) i e := by
  induction left generalizing i with
  | zero =>
      constructor
      · intro h
        simp [scanRight] at h
      · intro h
        have := h.le_end
        have := h.end_lt
        omega
  | succ left ih =>
      have hbound : i + (left + 1) = i + 1 + left := by omega
      constructor
      · intro h
        simp only [scanRight] at h
        split at h
        · contradiction
        · rename_i hused
          split at h
          · rename_i hknown
            split at h
            · rename_i hclose
              obtain rfl : i = e := by simpa using h
              refine ⟨le_rfl, by omega, ⟨hknown, hclose⟩, ?_, ?_⟩
              · intro j h₁ h₂
                omega
              · intro j h₁ h₂
                obtain rfl : j = i := by omega
                simpa using hused
            · rename_i hclose
              have hrest := (ih (i + 1)).mp h
              refine ⟨by have := hrest.le_end; omega, by have := hrest.end_lt; omega,
                hrest.closing, ?_, ?_⟩
              · intro j h₁ h₂
                rcases Nat.eq_or_lt_of_le h₁ with rfl | h₁
                · exact ⟨hknown, by simpa using hclose⟩
                · exact hrest.inner j h₁ h₂
              · intro j h₁ h₂
                rcases Nat.eq_or_lt_of_le h₁ with rfl | h₁
                · simpa using hused
                · exact hrest.fresh j h₁ h₂
          · contradiction
      · intro h
        have hused : L.used i = false := h.fresh i le_rfl h.le_end
        rcases Nat.eq_or_lt_of_le h.le_end with rfl | hlt
        · simp [scanRight, hused, h.closing.1, h.closing.2]
        · have hinner := h.inner i le_rfl hlt
          simp only [scanRight, hused, hinner.1, hinner.2, if_true, Bool.false_eq_true, if_false]
          refine (ih (i + 1)).mpr ⟨hlt, by have := h.end_lt; omega, h.closing, ?_, ?_⟩
          · exact fun j h₁ h₂ => h.inner j (by omega) h₂
          · exact fun j h₁ h₂ => h.fresh j (by omega) h₂

/-- The left scan finds the specified left end, and nothing else. -/
theorem scanLeft_eq_some_iff (start a : Nat) (u : Bool) :
    scanLeft L start = some (a, u) ↔ IsLeftEnd L start a u := by
  induction start with
  | zero =>
      constructor
      · intro h
        obtain ⟨rfl, rfl⟩ : 0 = a ∧ false = u := by simpa [scanLeft] using h
        refine ⟨le_rfl, ?_, ?_, ?_, by simp⟩ <;> intros <;> omega
      · intro h
        obtain rfl : a = 0 := by have := h.start_le; omega
        have hu : u = false := by simpa using h.unknown
        simp [scanLeft, hu]
  | succ next ih =>
      by_cases hinner : L.Inner next
      · -- an inner cell extends the segment, so both sides pass to `next`
        have hstep : scanLeft L (next + 1) =
            if L.used next then none else scanLeft L next := by
          simp [scanLeft, hinner.1, hinner.2]
        rw [hstep]
        constructor
        · intro h
          split at h
          · contradiction
          · rename_i hused
            have hrest := ih.mp h
            refine ⟨by have := hrest.start_le; omega, ?_, ?_, hrest.least, hrest.unknown⟩
            · intro j h₁ h₂
              rcases Nat.lt_succ_iff_lt_or_eq.mp h₂ with h₂ | rfl
              · exact hrest.inner j h₁ h₂
              · exact hinner
            · intro j h₁ h₂
              rcases Nat.lt_succ_iff_lt_or_eq.mp h₂ with h₂ | rfl
              · exact hrest.fresh j h₁ h₂
              · simpa using hused
        · intro h
          have hne : a ≠ next + 1 := by
            rintro rfl
            exact h.least (Nat.succ_pos next) hinner
          have hle : a ≤ next := by have := h.start_le; omega
          rw [if_neg (by simp [h.fresh next hle (Nat.lt_succ_self next)])]
          exact ih.mpr ⟨hle, fun j h₁ h₂ => h.inner j h₁ (by omega),
            fun j h₁ h₂ => h.fresh j h₁ (by omega), h.least, h.unknown⟩
      · -- any other cell stops the scan right after itself
        have hstep : scanLeft L (next + 1) = some (next + 1, !L.known next) := by
          cases hknown : L.known next with
          | false => simp [scanLeft, hknown]
          | true =>
              have hclose : L.close next = true := by
                by_contra hclose
                exact hinner ⟨hknown, by simpa using hclose⟩
              simp [scanLeft, hknown, hclose]
        rw [hstep]
        constructor
        · intro h
          obtain ⟨rfl, rfl⟩ : next + 1 = a ∧ (!L.known next) = u := by simpa using h
          refine ⟨le_rfl, ?_, ?_, fun _ => hinner, by simp⟩ <;> intros <;> omega
        · intro h
          obtain rfl : a = next + 1 := by
            by_contra hne
            have hle : a ≤ next := by have := h.start_le; omega
            exact hinner (h.inner next hle (Nat.lt_succ_self next))
          have hu : u = !L.known next := by
            rw [Bool.eq_iff_iff]
            simpa using h.unknown
          simp [hu]

/-- The scans compute exactly the segment around the position. -/
theorem segmentAt_eq_some_iff (n i a e : Nat) (u : Bool) :
    segmentAt L n i = some (a, e, u) ↔ IsSegment L n i a e u := by
  unfold segmentAt
  split
  · rename_i hn
    constructor
    · intro h
      contradiction
    · intro h
      have := h.le_end
      have := h.end_lt
      omega
  · rename_i hn
    have hbound : i + (n - i) = n := by omega
    have hright := fun e => hbound ▸ scanRight_eq_some_iff (L := L) (n - i) i e
    constructor
    · intro h
      split at h
      · contradiction
      · rename_i e' hscan
        simp only [Option.map_eq_some_iff, Prod.exists, Prod.mk.injEq] at h
        obtain ⟨a', u', hleft, rfl, rfl, rfl⟩ := h
        have hr := (hright e').mp hscan
        have hl := (scanLeft_eq_some_iff i a' u').mp hleft
        refine ⟨hl.start_le, hr.le_end, hr.end_lt, hr.closing, ?_, ?_, hl.least, hl.unknown⟩
        · intro j h₁ h₂
          rcases Nat.lt_or_ge j i with hj | hj
          · exact hl.inner j h₁ hj
          · exact hr.inner j hj h₂
        · intro j h₁ h₂
          rcases Nat.lt_or_ge j i with hj | hj
          · exact hl.fresh j h₁ hj
          · exact hr.fresh j hj h₂
    · intro h
      have hscan : scanRight L (n - i) i = some e :=
        (hright e).mpr ⟨h.le_end, h.end_lt, h.closing,
          fun j h₁ h₂ => h.inner j (h.start_le.trans h₁) h₂,
          fun j h₁ h₂ => h.fresh j (h.start_le.trans h₁) h₂⟩
      have hleft : scanLeft L i = some (a, u) :=
        (scanLeft_eq_some_iff i a u).mpr ⟨h.start_le,
          fun j h₁ h₂ => h.inner j h₁ (h₂.trans_le h.le_end),
          fun j h₁ h₂ => h.fresh j h₁ (h₂.le.trans h.le_end), h.least, h.unknown⟩
      simp [hscan, hleft]

end Segment
