import ShredstreamProxy.Slot.Run

/-!
# Honestly built blocks

A layout divides the data indexes of a slot into erasure sets, and a block adds what an
honest leader puts there: which shreds complete a segment, the ledger data of every
shred, and the coding shreds of every set.  Segments end only where erasure sets end,
so each of them is a union of whole sets.

Main results:

- Theorem {lit}`Layout.le_of_isLast`: a range that ends with a set contains the rest of each
  set it meets.
- Theorem {lit}`Block.IsSegment.fecOf_mem`: the set of every index of a segment starts inside
  the segment.
- Theorem {lit}`Block.IsSegment.eq_of_mem`: segments do not overlap.
-/

namespace ShredstreamProxy

/-- The division of the data indexes of a slot into erasure sets: contiguous runs, each
named by its first index. -/
structure Layout where
  numData : Nat
  fecOf : Nat → FecSetIndex
  numData_le : numData ≤ maxDataShredsPerSlot
  fecOf_le : ∀ i, fecOf i ≤ i
  fecOf_eq : ∀ i j, fecOf i ≤ j → j ≤ i → fecOf j = fecOf i

namespace Layout

variable {L : Layout}

/-- The index is the last one of its set. -/
def IsLast (L : Layout) (i : Nat) : Prop := i + 1 < L.numData → L.fecOf (i + 1) = i + 1

/-- Later positions belong to the same set or to a later one. -/
theorem fecOf_mono {i j : Nat} (h : i ≤ j) : L.fecOf i ≤ L.fecOf j := by
  rcases Nat.lt_or_ge i (L.fecOf j) with hlt | hge
  · exact (L.fecOf_le i).trans hlt.le
  · exact (L.fecOf_eq j i hge h).le

/-- A range that ends with a set contains the rest of each set it meets. -/
theorem le_of_isLast {i j e : Nat} (he : L.IsLast e) (hj : j ≤ e) (hi : i < L.numData)
    (hset : L.fecOf i = L.fecOf j) : i ≤ e := by
  by_contra hgt
  have hnext : L.fecOf (e + 1) = e + 1 := he (by omega)
  have hmono : L.fecOf (e + 1) ≤ L.fecOf i := fecOf_mono (by omega)
  have hle := L.fecOf_le j
  rw [hnext, hset] at hmono
  dsimp only [FecSetIndex] at *
  omega

/-- The data indexes of a set. -/
def members (L : Layout) (f : FecSetIndex) : List Nat :=
  (List.range L.numData).filter fun i => L.fecOf i = f

/-- The number of data shreds of a set. -/
def setSize (L : Layout) (f : FecSetIndex) : Nat := (L.members f).length

theorem mem_members {f : FecSetIndex} {i : Nat} :
    i ∈ L.members f ↔ i < L.numData ∧ L.fecOf i = f := by
  simp [members]

theorem nodup_members (f : FecSetIndex) : (L.members f).Nodup :=
  List.nodup_range.filter _

/-- A set is not larger than a slot. -/
theorem setSize_le (f : FecSetIndex) : L.setSize f ≤ maxDataShredsPerSlot :=
  calc L.setSize f ≤ (List.range L.numData).length := List.length_filter_le _ _
    _ = L.numData := List.length_range
    _ ≤ maxDataShredsPerSlot := L.numData_le

/-- The size of a set, read off its last index. -/
theorem setSize_of_isLast {e : Nat} (he : L.IsLast e) (hlt : e < L.numData) :
    L.setSize (L.fecOf e) = e + 1 - L.fecOf e := by
  have hmem : ∀ i, i ∈ L.members (L.fecOf e) ↔ i ∈ List.range' (L.fecOf e) (e + 1 - L.fecOf e) := by
    intro i
    have hle := L.fecOf_le e
    rw [mem_members, List.mem_range'_1]
    constructor
    · rintro ⟨hi, hset⟩
      have h₁ : L.fecOf e ≤ i := hset ▸ L.fecOf_le i
      have h₂ : i ≤ e := le_of_isLast he le_rfl hi hset
      exact ⟨h₁, by omega⟩
    · rintro ⟨h₁, h₂⟩
      have hie : i ≤ e := by omega
      exact ⟨hie.trans_lt hlt, L.fecOf_eq e i h₁ hie⟩
  have hperm := (List.perm_ext_iff_of_nodup (nodup_members (L.fecOf e)) List.nodup_range').mpr hmem
  rw [setSize, hperm.length_eq, List.length_range']

end Layout

/-- What an honest leader builds for a slot. -/
structure Block extends Layout where
  slot : Slot
  /-- The shreds flagged as completing a segment. -/
  completes : Nat → Bool
  /-- The ledger data of each data shred. -/
  data : Nat → Bytes
  /-- The coding shreds. -/
  codes : ShredCode → Prop
  completes_last : ∀ i, i < numData → completes i = true → toLayout.IsLast i

namespace Block

variable {B : Block} {ledger : Ledger}

/-- The shred belongs to the block. -/
def Genuine (ledger : Ledger) (B : Block) : Shred → Prop
  | .shredData d => d.commonHeader.slot = B.slot ∧ d.commonHeader.index < B.numData ∧
      d.commonHeader.fecSetIndex = B.fecOf d.commonHeader.index ∧
      d.completes = B.completes d.commonHeader.index ∧
      ledger.getData d.payload = some (B.data d.commonHeader.index)
  | .shredCode c => c.commonHeader.slot = B.slot ∧ B.codes c

/-- What being genuine says about a data shred. -/
structure DataAt (ledger : Ledger) (B : Block) (i : Nat) (s : Shred) : Prop where
  genuine : B.Genuine ledger s
  shredType : s.shredType = .data
  index : s.index = i

/-- The data shreds of a block are at its positions. -/
theorem DataAt.lt {i : Nat} {s : Shred} (h : B.DataAt ledger i s) : i < B.numData := by
  cases s with
  | shredCode c => exact absurd h.shredType (by simp [Shred.shredType])
  | shredData d => exact h.index ▸ h.genuine.2.1

/-- A data shred of a block names the set of its position. -/
theorem DataAt.fecSetIndex {i : Nat} {s : Shred} (h : B.DataAt ledger i s) :
    s.fecSetIndex = B.fecOf i := by
  cases s with
  | shredCode c => exact absurd h.shredType (by simp [Shred.shredType])
  | shredData d => exact h.index ▸ h.genuine.2.2.1

/-- A data shred of a block has the flag that the block gives its position. -/
theorem DataAt.completes {i : Nat} {s : Shred} (h : B.DataAt ledger i s) :
    s.completes = B.completes i := by
  cases s with
  | shredCode c => exact absurd h.shredType (by simp [Shred.shredType])
  | shredData d => exact h.index ▸ h.genuine.2.2.2.1

/-! ## Segments -/

/-- A segment starts at zero or after a completing shred and ends at the next one. -/
structure IsSegment (B : Block) (a b : Nat) : Prop where
  le : a ≤ b
  lt : b < B.numData
  start : a = 0 ∨ B.completes (a - 1) = true
  inner : ∀ j, a ≤ j → j < b → B.completes j = false
  closes : B.completes b = true

/-- The ledger data of a range of indexes. -/
def payload (B : Block) (a b : Nat) : Bytes :=
  ((List.range' a (b + 1 - a)).map B.data).flatten

namespace IsSegment

variable {a b : Nat}

/-- A segment ends where an erasure set ends. -/
theorem isLast (h : B.IsSegment a b) : B.toLayout.IsLast b :=
  B.completes_last b h.lt h.closes

/-- Segments start with a set. -/
theorem fecOf_start (h : B.IsSegment a b) : B.fecOf a = a := by
  rcases h.start with rfl | hprev
  · exact Nat.le_zero.mp (B.fecOf_le 0)
  · rcases Nat.eq_zero_or_pos a with rfl | hpos
    · exact Nat.le_zero.mp (B.fecOf_le 0)
    · have hle := h.le
      have hlt := h.lt
      have hlast := B.completes_last (a - 1) (by omega) hprev
      have hsucc : a - 1 + 1 = a := by omega
      unfold Layout.IsLast at hlast
      rw [hsucc] at hlast
      exact hlast (by omega)

/-- The set of every index of a segment starts inside the segment. -/
theorem fecOf_mem (h : B.IsSegment a b) {j : Nat} (h₁ : a ≤ j) (h₂ : j ≤ b) :
    a ≤ B.fecOf j ∧ B.fecOf j ≤ b := by
  refine ⟨?_, (B.fecOf_le j).trans h₂⟩
  have hmono : B.fecOf a ≤ B.fecOf j := Layout.fecOf_mono h₁
  rwa [h.fecOf_start] at hmono

/-- The closing index of the segment is the first completing index at or after any of its
indexes. -/
theorem end_unique (h : B.IsSegment a b) {j e : Nat} (h₁ : a ≤ j) (h₂ : j ≤ b) (hje : j ≤ e)
    (hinner : ∀ k, j ≤ k → k < e → B.completes k = false) (he : B.completes e = true) : e = b := by
  rcases Nat.lt_trichotomy e b with hlt | heq | hgt
  · have := h.inner e (h₁.trans hje) hlt
    rw [this] at he
    contradiction
  · exact heq
  · have := hinner b h₂ hgt
    rw [h.closes] at this
    contradiction

/-- Two segments with a common index are equal. -/
theorem eq_of_mem (h : B.IsSegment a b) {c d j : Nat} (h' : B.IsSegment c d) (h₁ : a ≤ j)
    (h₂ : j ≤ b) (h₃ : c ≤ j) (h₄ : j ≤ d) : a = c ∧ b = d := by
  have hend : d = b := h.end_unique h₁ h₂ h₄ (fun k hk => h'.inner k (h₃.trans hk)) h'.closes
  refine ⟨?_, hend.symm⟩
  have hstart : ∀ {x y : Nat}, B.IsSegment x b → B.IsSegment y b → x ≤ y := by
    intro x y hx hy
    by_contra hlt
    rcases hx.start with hzero | hprev
    · omega
    · have hle := hx.le
      have := hy.inner (x - 1) (by omega) (by omega)
      rw [this] at hprev
      contradiction
  rw [hend] at h'
  exact le_antisymm (hstart h h') (hstart h' h)

end IsSegment

/-- The block in slot 0 of the small ledger. -/
def sample : Block where
  numData := 3
  fecOf i := if i = 2 then 1 else i
  numData_le := by decide
  fecOf_le i := by
    dsimp only [FecSetIndex]
    split <;> omega
  fecOf_eq i j := by
    dsimp only [FecSetIndex]
    split <;> split <;> omega
  slot := 0
  completes i := i == 0 || i == 2
  data i := [UInt8.ofNat i]
  codes c := c = Sample.code
  completes_last i hi hc := by
    unfold Layout.IsLast
    intro hnext
    interval_cases i <;> simp_all

end Block

end ShredstreamProxy
