import Mathlib

/-!
# Shreds and the ledger library

The data model that the deshredder shares with the Solana ledger library: shred
headers, the two shred variants, packets, and the ledger functions the proxy calls.
The ledger functions are parameters, bundled with what their documentation promises
about the shreds they hand out.

Main definitions:

- {lit}`Shred`: a Merkle shred, either {lit}`ShredData` or {lit}`ShredCode`.
- {lit}`Shred.Admitted`: the bounds that sanitizing a shred enforces.
- {lit}`Ledger`: parsing, erasure recovery, deshredding and entry decoding.
- {lit}`IterOrder`: one iteration order for the hash sets of a call.
-/

namespace ShredstreamProxy

/-- Slot numbers. -/
abbrev Slot := Nat

/-- Index of an erasure set: the index of its first data shred. -/
abbrev FecSetIndex := Nat

/-- Raw bytes. -/
abbrev Bytes := List UInt8

/-- Bound on the data shreds, and on the coding shreds, of one slot. -/
def maxDataShredsPerSlot : Nat := 32768

/-- Number of tracked slots above which old slots are pruned. -/
def maxProcessingAge : Nat := 150

/-- Size in bytes of the payload of a coding shred. -/
def sizeOfCodePayload : Nat := 1228

/-- Size in bytes of one entry of a Merkle proof. -/
def sizeOfMerkleProofEntry : Nat := 20

/-- Size in bytes of a signature. -/
def sizeOfSignature : Nat := 64

/-! ## Shreds -/

/-- The two kinds of shreds. -/
inductive ShredType where
  | data
  | code
deriving DecidableEq

/-- The byte that encodes a shred type. -/
def ShredType.toByte : ShredType → Nat
  | .data => 0b10100101
  | .code => 0b01011010

/-- Authentication variant recorded in the common header. -/
inductive ShredVariant where
  | legacyCode
  | legacyData
  | merkleCode (proofSize : Nat) (chained resigned : Bool)
  | merkleData (proofSize : Nat) (chained resigned : Bool)
deriving DecidableEq

/-- Header shared by data and coding shreds. -/
structure ShredCommonHeader where
  signature : Bytes
  shredVariant : ShredVariant
  slot : Slot
  index : Nat
  version : Nat
  fecSetIndex : FecSetIndex
deriving DecidableEq

/-- Flags of a data shred. -/
structure ShredFlags where
  referenceTick : Nat
  dataComplete : Bool
  lastInSlot : Bool
deriving DecidableEq

/-- Header of a data shred. -/
structure DataShredHeader where
  parentOffset : Nat
  flags : ShredFlags
  size : Nat
deriving DecidableEq

/-- Header of a coding shred. -/
structure CodingShredHeader where
  numDataShreds : Nat
  numCodingShreds : Nat
  position : Nat
deriving DecidableEq

/-- A data shred. -/
structure ShredData where
  commonHeader : ShredCommonHeader
  dataHeader : DataShredHeader
  payload : Bytes
deriving DecidableEq

/-- A coding shred; its payload always has the full coding size. -/
structure ShredCode where
  commonHeader : ShredCommonHeader
  codingHeader : CodingShredHeader
  payload : { bytes : Bytes // bytes.length = sizeOfCodePayload }
deriving DecidableEq

/-- A Merkle shred. -/
inductive Shred where
  | shredCode (s : ShredCode)
  | shredData (s : ShredData)
deriving DecidableEq

/-- The shred is flagged as the last one of a data segment. -/
def ShredData.completes (s : ShredData) : Bool :=
  s.dataHeader.flags.dataComplete || s.dataHeader.flags.lastInSlot

namespace Shred

def commonHeader : Shred → ShredCommonHeader
  | shredCode s => s.commonHeader
  | shredData s => s.commonHeader

def slot (s : Shred) : Slot := s.commonHeader.slot

def index (s : Shred) : Nat := s.commonHeader.index

def fecSetIndex (s : Shred) : FecSetIndex := s.commonHeader.fecSetIndex

def shredType : Shred → ShredType
  | shredCode _ => .code
  | shredData _ => .data

def payload : Shred → Bytes
  | shredCode s => s.payload.1
  | shredData s => s.payload

/-- Only a data shred can complete a data segment. -/
def completes : Shred → Bool
  | shredCode _ => false
  | shredData s => s.completes

/-- Position of a shred inside its slot. -/
def position (s : Shred) : ShredType × Nat := (s.shredType, s.index)

/-- Bounds that every sanitized shred respects. -/
def Admitted : Shred → Prop
  | shredCode s => s.commonHeader.fecSetIndex < maxDataShredsPerSlot ∧
      s.commonHeader.index < maxDataShredsPerSlot
  | shredData s => s.commonHeader.fecSetIndex ≤ s.commonHeader.index ∧
      s.commonHeader.index < maxDataShredsPerSlot

instance : DecidablePred Admitted
  | shredCode _ => inferInstanceAs (Decidable (_ ∧ _))
  | shredData _ => inferInstanceAs (Decidable (_ ∧ _))

theorem Admitted.index_lt {s : Shred} (h : s.Admitted) : s.index < maxDataShredsPerSlot := by
  cases s with
  | shredCode s => exact h.2
  | shredData s => exact h.2

theorem Admitted.fecSetIndex_lt {s : Shred} (h : s.Admitted) :
    s.fecSetIndex < maxDataShredsPerSlot := by
  cases s with
  | shredCode s => exact h.1
  | shredData s => exact lt_of_le_of_lt h.1 h.2

end Shred

/-! ## Packets and entries -/

/-- A received packet. -/
structure Packet where
  discard : Bool
  size : Nat
  buffer : Bytes
deriving DecidableEq

/-- The packet's bytes, unless it was discarded or its size exceeds its buffer. -/
def Packet.data (p : Packet) : Option Bytes :=
  if p.discard || p.buffer.length < p.size then none else some (p.buffer.take p.size)

/-- A ledger entry, as far as the proxy looks into it. -/
structure Entry where
  transactions : List Bytes
deriving DecidableEq

/-! ## Ledger functions -/

/-- The functions of the ledger library that the deshredder calls.  A {lean}`none`
result is an error; {lit}`recover` may also report an error for a single shred. -/
structure Ledger where
  /-- Deserialize a packet and convert it to a Merkle shred. -/
  parse : Bytes → Option Shred
  /-- The ledger data carried by the payload of a data shred. -/
  getData : Bytes → Option Bytes
  /-- Recover the missing shreds of an erasure set. -/
  recover : List Shred → Option (List (Option Shred))
  /-- Join the payloads of consecutive data shreds. -/
  deshred : List Bytes → Option Bytes
  /-- Decode the entries of a joined payload. -/
  deserialize : Bytes → Option (List Entry)
  /-- Parsing sanitizes its result. -/
  parse_admitted : ∀ {bytes s}, parse bytes = some s → s.Admitted
  /-- Recovery sanitizes its results and stays within the set it was called for. -/
  recover_admitted : ∀ {slot fecSetIndex l r s}, l ≠ [] →
    (∀ t ∈ l, t.slot = slot ∧ t.fecSetIndex = fecSetIndex) → recover l = some r → some s ∈ r →
    s.Admitted ∧ s.slot = slot ∧ s.fecSetIndex = fecSetIndex

/-- The order in which a call iterates over a hash set: some rearrangement of its
elements. -/
structure IterOrder where
  iter : List Shred → List Shred
  perm : ∀ l, (iter l).Perm l

/-- Iteration in insertion order. -/
def IterOrder.insertion : IterOrder where
  iter l := l
  perm l := List.Perm.refl l

/-- Iteration against the insertion order. -/
def IterOrder.reversed : IterOrder where
  iter l := l.reverse
  perm l := l.reverse_perm

/-! ## A small ledger

Three slots with a handful of shreds, on which runs can be evaluated.  Slot 0 has the
erasure sets of data shred 0 and of data shreds 1 and 2, and one coding shred for the
second set, whose coding index is 0.  Slot 2 has data shreds 0 and 1 in a single set, of
which the first one completes a segment. -/

namespace Sample

def header (slot index fecSetIndex : Nat) (shredVariant : ShredVariant) : ShredCommonHeader where
  signature := []
  shredVariant := shredVariant
  slot := slot
  index := index
  version := 0
  fecSetIndex := fecSetIndex

/-- A data shred that carries its index as data. -/
def data (slot index fecSetIndex : Nat) (complete : Bool) : Shred :=
  .shredData
    { commonHeader := header slot index fecSetIndex (.merkleData 0 false false)
      dataHeader := ⟨0, ⟨0, complete, false⟩, 0⟩
      payload := [UInt8.ofNat index] }

/-- The coding shred of the second set of slot 0. -/
def code : ShredCode where
  commonHeader := header 0 0 1 (.merkleCode 0 false false)
  codingHeader := ⟨2, 1, 0⟩
  payload := ⟨List.replicate sizeOfCodePayload 0, List.length_replicate⟩

def parse : Bytes → Option Shred
  | [0] => some (data 0 0 0 true)
  | [1] => some (data 0 1 1 false)
  | [2] => some (data 0 2 1 true)
  | [3] => some (.shredCode code)
  | [4] => some (data 1 0 0 true)
  | [5] => some (data 2 0 0 true)
  | [6] => some (data 2 1 0 true)
  | _ => none

/-- Recovery of the second set of slot 0 from its coding shred and one data shred. -/
def recover (shreds : List Shred) : Option (List (Option Shred)) :=
  if .shredCode code ∈ shreds ∧ shreds.any (fun s => s.shredType = .data) then
    some (([data 0 1 1 false, data 0 2 1 true].filter fun s =>
      !shreds.any fun t => t.position = s.position).map some)
  else none

theorem parse_admitted {bytes : Bytes} {s : Shred} (h : parse bytes = some s) : s.Admitted := by
  unfold parse at h
  split at h <;> first | contradiction | (obtain rfl := Option.some.inj h; decide)

theorem recover_admitted {slot : Slot} {fecSetIndex : FecSetIndex} {l : List Shred}
    {r : List (Option Shred)} {s : Shred}
    (hl : ∀ t ∈ l, t.slot = slot ∧ t.fecSetIndex = fecSetIndex) (hr : recover l = some r)
    (hs : some s ∈ r) : s.Admitted ∧ s.slot = slot ∧ s.fecSetIndex = fecSetIndex := by
  unfold recover at hr
  split at hr
  · rename_i hcode
    obtain rfl := Option.some.inj hr
    have hset := hl _ hcode.1
    obtain ⟨rfl, rfl⟩ : 0 = slot ∧ 1 = fecSetIndex := hset
    rcases List.mem_map.mp hs with ⟨t, ht, heq⟩
    obtain rfl := Option.some.inj heq
    rcases List.mem_cons.mp (List.mem_filter.mp ht).1 with rfl | ht
    · decide
    · obtain rfl := List.mem_singleton.mp ht
      decide
  · contradiction

end Sample

/-- The small ledger.  Joining concatenates; decoding rejects the data of the last shred of a
segment of two. -/
def Ledger.sample : Ledger where
  parse := Sample.parse
  getData := some
  recover := Sample.recover
  deshred := fun payloads => some payloads.flatten
  deserialize := fun payload => if payload = [2] then none else some []
  parse_admitted := Sample.parse_admitted
  recover_admitted := fun _ hl hr hs => Sample.recover_admitted hl hr hs

/-! ## A second small ledger

Slot 3 has one erasure set of two data shreds and two coding shreds, of which the first one also
comes in a forged variant; recovery returns the missing data shreds and then the missing coding
shreds.  Slot 60 has a single data shred. -/

namespace Wide

/-- A coding shred of slot 3; the payloads of the genuine ones are zero. -/
def code (index : Nat) (fill : UInt8) : ShredCode where
  commonHeader := Sample.header 3 index 0 (.merkleCode 0 false false)
  codingHeader := ⟨2, 2, index⟩
  payload := ⟨List.replicate sizeOfCodePayload fill, List.length_replicate⟩

def parse : Bytes → Option Shred
  | [0] => some (Sample.data 3 0 0 false)
  | [1] => some (Sample.data 3 1 0 true)
  | [2] => some (.shredCode (code 0 0))
  | [3] => some (.shredCode (code 0 1))
  | [4] => some (Sample.data 60 0 0 true)
  | _ => none

/-- The shreds of the set in slot 3. -/
def shreds : List Shred :=
  [Sample.data 3 0 0 false, Sample.data 3 1 0 true, .shredCode (code 0 0), .shredCode (code 1 0)]

/-- Recovery of the set in slot 3 from its first coding shred and some data shred. -/
def recover (l : List Shred) : Option (List (Option Shred)) :=
  if .shredCode (code 0 0) ∈ l ∧ l.any (fun s => s.shredType = .data) then
    some ((shreds.filter fun s => !l.any fun t => t.position = s.position).map some)
  else none

theorem parse_admitted {bytes : Bytes} {s : Shred} (h : parse bytes = some s) : s.Admitted := by
  unfold parse at h
  split at h <;> first | contradiction | (obtain rfl := Option.some.inj h; decide)

/-- The shreds of the set in slot 3 are admitted and belong to it. -/
theorem shreds_admitted : ∀ s ∈ shreds, s.Admitted ∧ s.slot = 3 ∧ s.fecSetIndex = 0 := by
  intro s hs
  simp only [shreds, List.mem_cons, List.not_mem_nil, or_false] at hs
  rcases hs with rfl | rfl | rfl | rfl <;> exact ⟨by decide, rfl, rfl⟩

theorem recover_admitted {slot : Slot} {fecSetIndex : FecSetIndex} {l : List Shred}
    {r : List (Option Shred)} {s : Shred}
    (hl : ∀ t ∈ l, t.slot = slot ∧ t.fecSetIndex = fecSetIndex) (hr : recover l = some r)
    (hs : some s ∈ r) : s.Admitted ∧ s.slot = slot ∧ s.fecSetIndex = fecSetIndex := by
  unfold recover at hr
  split at hr
  · rename_i hcode
    obtain rfl := Option.some.inj hr
    obtain ⟨rfl, rfl⟩ : 3 = slot ∧ 0 = fecSetIndex := hl _ hcode.1
    rcases List.mem_map.mp hs with ⟨t, ht, heq⟩
    obtain rfl := Option.some.inj heq
    exact shreds_admitted _ (List.mem_filter.mp ht).1
  · contradiction

end Wide

/-- The second small ledger. -/
def Ledger.wide : Ledger where
  parse := Wide.parse
  getData := some
  recover := Wide.recover
  deshred := fun payloads => some payloads.flatten
  deserialize := fun _ => some []
  parse_admitted := Wide.parse_admitted
  recover_admitted := fun _ hl hr hs => Wide.recover_admitted hl hr hs

end ShredstreamProxy
