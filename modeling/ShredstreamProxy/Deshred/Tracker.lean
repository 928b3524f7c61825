import ShredstreamProxy.Lib.Exec
import ShredstreamProxy.Ledger

/-!
# The per-slot state tracker

This module embeds the helper functions of the deshredder: the state tracker of a
slot, the search for a complete segment, the update upon a new shred, the count of
what an erasure set holds, and the comparison used by its hash sets.  Every vector
access is checked, so an out-of-range index shows up as a panic.

Main definitions:

- {lit}`ShredsStateTracker`: the four vectors kept for a slot.
- {lit}`getIndexes`: the bounds of the segment around an index.
- {lit}`updateStateTracker`: record a received or recovered shred.
- {lit}`getDataShredInfo`: expected and present shreds of an erasure set.
- {lit}`comparableEq`: the equality that hash sets of shreds use.
-/

namespace ShredstreamProxy

open Exec

/-- What is known about one data shred position. -/
inductive ShredStatus where
  | unknown
  /-- Shred that is not marked as completing a data segment. -/
  | notDataComplete
  /-- Shred that is marked as completing a data segment. -/
  | dataComplete
deriving DecidableEq

/-- Per-slot information about data shreds. -/
structure ShredsStateTracker where
  /-- Compact status of each data shred for fast iteration. -/
  dataStatus : List ShredStatus
  /-- Data shreds received for the slot. -/
  dataShreds : List (Option Shred)
  /-- Which erasure sets have been recovered already, by set index. -/
  alreadyRecoveredFecSets : List Bool
  /-- Which data shreds have been deshredded already, by data index. -/
  alreadyDeshredded : List Bool

/-- A fresh tracker knows nothing about any of its positions. -/
def ShredsStateTracker.default : ShredsStateTracker where
  dataStatus := List.replicate maxDataShredsPerSlot .unknown
  dataShreds := List.replicate maxDataShredsPerSlot none
  alreadyRecoveredFecSets := List.replicate maxDataShredsPerSlot false
  alreadyDeshredded := List.replicate maxDataShredsPerSlot false

/-! ## Searching for a complete segment -/

/-- The loop that looks for the first complete shred at or after `last`.  The first
argument counts the positions left in the vector. -/
def findEnd (tracker : ShredsStateTracker) : Nat → Nat → Exec (Option Nat)
  | 0, _ => pure none
  | left + 1, last => do
      if ← index tracker.alreadyDeshredded last then
        pure none
      else
        match ← index tracker.dataStatus last with
        | .unknown => pure none
        | .dataComplete => pure (some last)
        | .notDataComplete => findEnd tracker left (last + 1)

/-- The loop that looks for the start of the segment, where `start` is the start
found so far and `next` the position before it. -/
def findStart (tracker : ShredsStateTracker) (last start next : Nat) :
    Exec (Option (Nat × Nat × Bool)) := do
  match ← index tracker.dataStatus next with
  | .notDataComplete =>
      if ← index tracker.alreadyDeshredded next then
        pure none
      else
        match next with
        | 0 => pure (some (0, last, false))
        | next + 1 => findStart tracker last (next + 1) next
  | .dataComplete => pure (some (start, last, false))
  | .unknown => pure (some (start, last, true))

/-- Inclusive range of the shreds that form one complete segment around `i`, and
whether its start is only a guess because the position before it is unknown. -/
def getIndexes (tracker : ShredsStateTracker) (i : Nat) : Exec (Option (Nat × Nat × Bool)) :=
  if tracker.dataStatus.length ≤ i then
    pure none
  else do
    match ← findEnd tracker (tracker.dataStatus.length - i) i with
    | none => pure none
    | some last =>
        if last = 0 then
          pure (some (0, 0, false))
        else if i = 0 then
          pure (some (0, last, false))
        else
          findStart tracker last i (i - 1)

/-! ## Recording a shred -/

/-- Record a received or recovered shred.  The result is its index and the updated
tracker, or {lean}`none` when the tracker is left as it was. -/
def updateStateTracker (shred : Shred) (tracker : ShredsStateTracker) :
    Exec (Option (Nat × ShredsStateTracker)) := do
  if ← index tracker.alreadyRecoveredFecSets shred.fecSetIndex then
    pure none
  else
    match shred with
    | .shredCode _ => pure (some (shred.index, tracker))
    | .shredData s =>
        if (← index tracker.dataShreds shred.index).isSome then
          pure none
        else if (← index tracker.dataStatus shred.index) ≠ .unknown then
          pure none
        else
          let dataShreds ← store tracker.dataShreds shred.index (some shred)
          let dataStatus ← store tracker.dataStatus shred.index
            (if s.completes then .dataComplete else .notDataComplete)
          pure (some (shred.index, { tracker with dataShreds, dataStatus }))

/-! ## Erasure sets -/

/-- How far a coding shred's payload is compared: everything but the trailing Merkle
proof and retransmitter signature. -/
def comparisonLen (proofSize : Nat) (resigned : Bool) : Nat :=
  sizeOfCodePayload -
    (proofSize * sizeOfMerkleProofEntry + if resigned then sizeOfSignature else 0)

/-- Equality of shreds that ignores the bytes that may differ between copies. -/
def comparableEq (ledger : Ledger) : Shred → Shred → Bool
  | .shredCode s₁, .shredCode s₂ =>
      match s₁.commonHeader.shredVariant with
      | .merkleCode proofSize _ resigned =>
          s₁.codingHeader == s₂.codingHeader && s₁.commonHeader == s₂.commonHeader &&
            s₁.payload.1.take (comparisonLen proofSize resigned) ==
              s₂.payload.1.take (comparisonLen proofSize resigned)
      | _ => false
  | .shredData s₁, .shredData s₂ =>
      match ledger.getData s₁.payload, ledger.getData s₂.payload with
      | some data₁, some data₂ =>
          s₁.dataHeader == s₂.dataHeader && s₁.commonHeader == s₂.commonHeader &&
            data₁ == data₂
      | _, _ => false
  | _, _ => false

/-- The slices compared by {lit}`comparableEq` lie inside every coding payload. -/
theorem comparisonLen_le_length (proofSize : Nat) (resigned : Bool) (s : ShredCode) :
    comparisonLen proofSize resigned ≤ s.payload.1.length := by
  rw [s.payload.2]
  exact Nat.sub_le _ _

/-- Insert a shred into the hash set of its erasure set. -/
def insertComparable (ledger : Ledger) (shreds : List Shred) (shred : Shred) : List Shred :=
  if shreds.any (comparableEq ledger shred) then shreds else shreds ++ [shred]

/-- Equal shreds have the same header and type. -/
theorem comparableEq_header {ledger : Ledger} {s t : Shred} (h : comparableEq ledger s t = true) :
    s.commonHeader = t.commonHeader ∧ s.shredType = t.shredType := by
  cases s with
  | shredCode s =>
      cases t with
      | shredData t => simp [comparableEq] at h
      | shredCode t =>
          simp only [comparableEq] at h
          split at h
          · simp only [Bool.and_eq_true, beq_iff_eq] at h
            exact ⟨h.1.2, rfl⟩
          · contradiction
  | shredData s =>
      cases t with
      | shredCode t => simp [comparableEq] at h
      | shredData t =>
          simp only [comparableEq] at h
          split at h
          · simp only [Bool.and_eq_true, beq_iff_eq] at h
            exact ⟨h.1.2, rfl⟩
          · contradiction

/-- Equal shreds have the same position. -/
theorem comparableEq_position {ledger : Ledger} {s t : Shred}
    (h : comparableEq ledger s t = true) : t.position = s.position := by
  have hheader := comparableEq_header h
  exact Prod.ext hheader.2.symm (congrArg ShredCommonHeader.index hheader.1).symm

/-- Inserting adds at most the shred itself. -/
theorem mem_insertComparable {ledger : Ledger} {l : List Shred} {s t : Shred}
    (h : t ∈ insertComparable ledger l s) : t ∈ l ∨ t = s := by
  unfold insertComparable at h
  split at h
  · exact Or.inl h
  · simpa using h

/-- The positions held after an insertion: a shred is left out only if its position is held. -/
theorem position_mem_insertComparable {ledger : Ledger} {l : List Shred} {s : Shred}
    {p : ShredType × Nat} :
    p ∈ (insertComparable ledger l s).map Shred.position ↔
      p ∈ l.map Shred.position ∨ p = s.position := by
  unfold insertComparable
  split
  · rename_i hany
    rcases List.any_eq_true.mp hany with ⟨t, ht, heq⟩
    constructor
    · exact Or.inl
    · rintro (hp | rfl)
      · exact hp
      · exact List.mem_map.mpr ⟨t, ht, comparableEq_position heq⟩
  · simp

/-- Expected and present numbers of shreds of an erasure set. -/
structure DataShredInfo where
  numExpectedDataShreds : Nat
  numExpectedCodingShreds : Nat
  numDataShreds : Nat
  numCodingShreds : Nat
deriving DecidableEq

/-- One iteration of {lit}`getDataShredInfo`; the counters are 16-bit and wrap. -/
def DataShredInfo.count (info : DataShredInfo) : Shred → DataShredInfo
  | .shredCode s =>
      { info with
        numCodingShreds := (info.numCodingShreds + 1) % 2 ^ 16
        numExpectedDataShreds := s.codingHeader.numDataShreds
        numExpectedCodingShreds := s.codingHeader.numCodingShreds }
  | .shredData s =>
      { info with
        numDataShreds := (info.numDataShreds + 1) % 2 ^ 16
        numExpectedDataShreds :=
          if info.numExpectedDataShreds = 0 && s.completes then
            ((s.commonHeader.index + 2 ^ 32 - s.commonHeader.fecSetIndex) % 2 ^ 32 % 2 ^ 16 + 1)
              % 2 ^ 16
          else
            info.numExpectedDataShreds }

/-- What an erasure set holds, counted in iteration order. -/
def getDataShredInfo (shreds : List Shred) : DataShredInfo :=
  shreds.foldl DataShredInfo.count ⟨0, 0, 0, 0⟩

/-- Sort key of the input of recovery: data shreds first, then by index. -/
def recoveryKey (s : Shred) : Nat × Nat := (255 - s.shredType.toByte, s.index)

/-- The input of recovery, sorted by {lit}`recoveryKey`. -/
def sortForRecovery (shreds : List Shred) : List Shred :=
  shreds.insertionSort fun s t =>
    (recoveryKey s).1 < (recoveryKey t).1 ∨
      (recoveryKey s).1 = (recoveryKey t).1 ∧ (recoveryKey s).2 ≤ (recoveryKey t).2

end ShredstreamProxy
