import ShredstreamProxy.Deshred.Tracker
import ShredstreamProxy.Lib.KeyedFold

/-!
# Reconstructing shreds

This module embeds {lit}`reconstruct_shreds`: a call ingests a batch of packets,
tries to recover every erasure set it touched, tries to deshred and decode the
segment around the first index of each of those sets, and finally prunes old slots.
A history is what the reconstructor thread accumulates over successive calls.

Main definitions:

- {lit}`ingestPacket`, {lit}`recoverFecSet`, {lit}`deshredFecSet` and {lit}`prune`: the
  four phases, each on the data it owns.
- {lit}`reconstructShreds`: one whole call.
- {lit}`reconstructShredsNoRetain`: the same call without its pruning step.
- {lit}`runCalls`: the history of a sequence of calls from the empty map.
-/

namespace ShredstreamProxy

open Exec KeyedFold

/-- Slots that lie further back than this are neither accepted nor kept. -/
def slotLookback : Slot := 50

/-- What is kept for one slot: its erasure sets and its tracker. -/
structure SlotEntry where
  fecSets : Std.ExtTreeMap FecSetIndex (List Shred)
  stateTracker : ShredsStateTracker

def SlotEntry.default : SlotEntry where
  fecSets := ∅
  stateTracker := ShredsStateTracker.default

/-- The tracked slots. -/
abbrev SlotMap := Std.ExtTreeMap Slot SlotEntry

/-- The entry of a slot, which is created empty when it does not exist yet. -/
def SlotMap.entry (allShreds : SlotMap) (slot : Slot) : SlotEntry :=
  allShreds[slot]?.getD SlotEntry.default

/-- State of the reconstructor between calls. -/
structure ProxyState where
  allShreds : SlotMap
  highestSlotSeen : Slot

def ProxyState.initial : ProxyState := ⟨∅, 0⟩

/-- One call: a batch of packets and the iteration order of the hash sets. -/
structure Call where
  order : IterOrder
  packets : List Packet

/-- A call with one packet of the small ledger for each of the given bytes. -/
def Sample.call (bytes : List UInt8) : Call where
  order := IterOrder.insertion
  packets := bytes.map fun byte => ⟨false, 1, [byte]⟩

/-- An item pushed to the decoded entries, with the range of data shreds it was
decoded from. -/
structure Deshredded where
  slot : Slot
  startDataCompleteIdx : Nat
  endDataCompleteIdx : Nat
  unknownStart : Bool
  entries : List Entry
  payload : Bytes
deriving DecidableEq

/-- Increments of the service metrics made by a call. -/
structure ServiceMetrics where
  recoveredCount : Nat
  entryCount : Nat
  txnCount : Nat
  unknownStartPositionCount : Nat
  fecRecoveryErrorCount : Nat
  bincodeDeserializeErrorCount : Nat
  unknownStartPositionErrorCount : Nat
deriving DecidableEq

def ServiceMetrics.zero : ServiceMetrics := ⟨0, 0, 0, 0, 0, 0, 0⟩

def ServiceMetrics.add (m m' : ServiceMetrics) : ServiceMetrics where
  recoveredCount := m.recoveredCount + m'.recoveredCount
  entryCount := m.entryCount + m'.entryCount
  txnCount := m.txnCount + m'.txnCount
  unknownStartPositionCount := m.unknownStartPositionCount + m'.unknownStartPositionCount
  fecRecoveryErrorCount := m.fecRecoveryErrorCount + m'.fecRecoveryErrorCount
  bincodeDeserializeErrorCount :=
    m.bincodeDeserializeErrorCount + m'.bincodeDeserializeErrorCount
  unknownStartPositionErrorCount :=
    m.unknownStartPositionErrorCount + m'.unknownStartPositionErrorCount

/-! ## Ingesting packets -/

/-- State of the ingest loop. -/
structure IngestState where
  allShreds : SlotMap
  highestSlotSeen : Slot
  slotFecIndexesToIterate : List (Slot × FecSetIndex)

/-- The ingest loop starts with an empty work list. -/
def ProxyState.toIngest (state : ProxyState) : IngestState :=
  ⟨state.allShreds, state.highestSlotSeen, []⟩

/-- The shred is too old with respect to the highest slot seen. -/
def IngestState.stale (state : IngestState) (slot : Slot) : Prop :=
  state.highestSlotSeen - slotLookback > slot

instance (state : IngestState) (slot : Slot) : Decidable (state.stale slot) :=
  inferInstanceAs (Decidable (_ > _))

/-- Offer a shred to the entry of its slot.  The result is {lean}`none` when the shred
is dropped, because it was completed already or is already known. -/
def ingestShred (ledger : Ledger) (entry : SlotEntry) (shred : Shred) :
    Exec (Option SlotEntry) := do
  if ← index entry.stateTracker.alreadyRecoveredFecSets shred.fecSetIndex then
    pure none
  else if ← index entry.stateTracker.alreadyDeshredded shred.index then
    pure none
  else
    match ← updateStateTracker shred entry.stateTracker with
    | none => pure none
    | some (_, stateTracker) =>
        let shreds := entry.fecSets[shred.fecSetIndex]?.getD []
        let fecSets := entry.fecSets.insert shred.fecSetIndex (insertComparable ledger shreds shred)
        pure (some { fecSets, stateTracker })

/-- The shred a packet carries, if it carries one. -/
def packetShred (ledger : Ledger) (packet : Packet) : Option Shred :=
  packet.data.bind ledger.parse

/-- One iteration of the ingest loop.  The slot's entry is created before the shred is
looked at. -/
def ingestPacket (ledger : Ledger) (state : IngestState) (packet : Packet) : Exec IngestState :=
  match packetShred ledger packet with
  | none => pure state
  | some shred => do
      let entry := state.allShreds.entry shred.slot
      let state := { state with allShreds := state.allShreds.insert shred.slot entry }
      if state.stale shred.slot then
        pure state
      else
        match ← ingestShred ledger entry shred with
        | none => pure state
        | some entry =>
            pure
              { allShreds := state.allShreds.insert shred.slot entry
                highestSlotSeen := max state.highestSlotSeen shred.slot
                slotFecIndexesToIterate :=
                  state.slotFecIndexesToIterate ++ [(shred.slot, shred.fecSetIndex)] }

/-! ## Recovering erasure sets -/

/-- Record one result of recovery, counting those that are new. -/
def recordRecovered (acc : ShredsStateTracker × Nat) :
    Option Shred → Exec (ShredsStateTracker × Nat)
  | none => pure acc
  | some shred => do
      match ← updateStateTracker shred acc.1 with
      | none => pure acc
      | some (_, stateTracker) => pure (stateTracker, acc.2 + 1)

/-- Recovery is worth trying: the set's size is known, enough shreds are present, and
some data shred is missing. -/
def needsRecovery (info : DataShredInfo) (numShreds : Nat) : Bool :=
  !(info.numExpectedDataShreds = 0 || numShreds < info.numExpectedDataShreds ||
    info.numDataShreds = info.numExpectedDataShreds)

/-- Try to recover the missing shreds of one erasure set. -/
def recoverFecSet (ledger : Ledger) (order : IterOrder) (fecSetIndex : FecSetIndex)
    (entry : SlotEntry) : Exec (SlotEntry × Nat) :=
  let shreds := entry.fecSets[fecSetIndex]?.getD []
  let entry := { entry with fecSets := entry.fecSets.insert fecSetIndex shreds }
  if needsRecovery (getDataShredInfo (order.iter shreds)) shreds.length then
    match ledger.recover (sortForRecovery (order.iter shreds)) with
    | none => pure (entry, 0)
    | some recovered => do
        let (stateTracker, count) ← recovered.foldlM recordRecovered (entry.stateTracker, 0)
        if 0 < count then
          let alreadyRecoveredFecSets ←
            store stateTracker.alreadyRecoveredFecSets fecSetIndex true
          pure
            ({ fecSets := entry.fecSets.insert fecSetIndex []
               stateTracker := { stateTracker with alreadyRecoveredFecSets } }, count)
        else
          pure ({ entry with stateTracker }, count)
  else
    pure (entry, 0)

/-- One iteration of the recovery loop. -/
def recoverStep (ledger : Ledger) (order : IterOrder) (acc : SlotMap × Nat)
    (work : Slot × FecSetIndex) : Exec (SlotMap × Nat) := do
  let (entry, count) ← recoverFecSet ledger order work.2 (acc.1.entry work.1)
  pure (acc.1.insert work.1 entry, acc.2 + count)

/-! ## Deshredding -/

/-- Mark one deshredded shred and its erasure set as done. -/
def markDeshredded (tracker : ShredsStateTracker) : Option Shred → Exec ShredsStateTracker
  | none => pure tracker
  | some shred => do
      let alreadyRecoveredFecSets ← store tracker.alreadyRecoveredFecSets shred.fecSetIndex true
      let alreadyDeshredded ← store tracker.alreadyDeshredded shred.index true
      pure { tracker with alreadyRecoveredFecSets, alreadyDeshredded }

/-- Metrics of an attempt that found a segment but failed afterwards. -/
def failureMetrics (unknownStart deserializing : Bool) : ServiceMetrics where
  recoveredCount := 0
  entryCount := 0
  txnCount := 0
  unknownStartPositionCount := if unknownStart then 1 else 0
  fecRecoveryErrorCount := if deserializing then 0 else 1
  bincodeDeserializeErrorCount := if deserializing then 1 else 0
  unknownStartPositionErrorCount := if unknownStart then 1 else 0

/-- Metrics of an attempt that decoded entries. -/
def successMetrics (unknownStart : Bool) (entries : List Entry) : ServiceMetrics where
  recoveredCount := 0
  entryCount := entries.length
  txnCount := (entries.map fun e => e.transactions.length).sum
  unknownStartPositionCount := if unknownStart then 1 else 0
  fecRecoveryErrorCount := 0
  bincodeDeserializeErrorCount := 0
  unknownStartPositionErrorCount := 0

/-- Try to deshred and decode the segment around the first index of an erasure set. -/
def deshredFecSet (ledger : Ledger) (slot : Slot) (fecSetIndex : FecSetIndex)
    (tracker : ShredsStateTracker) :
    Exec (ShredsStateTracker × Option Deshredded × ServiceMetrics) := do
  match ← getIndexes tracker fecSetIndex with
  | none => pure (tracker, none, ServiceMetrics.zero)
  | some (start, last, unknownStart) =>
      let toDeshred ← slice tracker.dataShreds start last
      let shreds ← toDeshred.mapM unwrap
      match ledger.deshred (shreds.map Shred.payload) with
      | none => pure (tracker, none, failureMetrics unknownStart false)
      | some payload =>
          match ledger.deserialize payload with
          | none => pure (tracker, none, failureMetrics unknownStart true)
          | some entries =>
              let tracker ← toDeshred.foldlM markDeshredded tracker
              pure (tracker, some ⟨slot, start, last, unknownStart, entries, payload⟩,
                successMetrics unknownStart entries)

/-- State of the deshred loop. -/
structure DeshredState where
  allShreds : SlotMap
  deshreddedEntries : List Deshredded
  metrics : ServiceMetrics

/-- One iteration of the deshred loop. -/
def deshredStep (ledger : Ledger) (acc : DeshredState) (work : Slot × FecSetIndex) :
    Exec DeshredState := do
  let entry := acc.allShreds.entry work.1
  let (stateTracker, pushed, metrics) ←
    deshredFecSet ledger work.1 work.2 entry.stateTracker
  pure
    { allShreds := acc.allShreds.insert work.1 { entry with stateTracker }
      deshreddedEntries := acc.deshreddedEntries ++ pushed.toList
      metrics := acc.metrics.add metrics }

/-! ## Pruning -/

/-- Report one erasure set unless it has been recovered: its index, the data shreds it
was expected to have and the shreds held for it. -/
def reportIncomplete (order : IterOrder) (tracker : ShredsStateTracker)
    (report : List (FecSetIndex × Nat × Nat)) (fecSet : FecSetIndex × List Shred) :
    Exec (List (FecSetIndex × Nat × Nat)) := do
  if ← index tracker.alreadyRecoveredFecSets fecSet.1 then
    pure report
  else
    let info := getDataShredInfo (order.iter fecSet.2)
    pure (report ++ [(fecSet.1, info.numExpectedDataShreds, fecSet.2.length)])

/-- The unrecovered erasure sets of a slot. -/
def incompleteFecSets (order : IterOrder) (entry : SlotEntry) :
    Exec (List (FecSetIndex × Nat × Nat)) :=
  entry.fecSets.toList.foldlM (reportIncomplete order entry.stateTracker) []

/-- When too many slots are tracked, drop the old ones and report what they missed. -/
def prune (order : IterOrder) (allShreds : SlotMap) (highestSlotSeen : Slot) :
    Exec (SlotMap × List (Slot × List (FecSetIndex × Nat × Nat))) :=
  if maxProcessingAge < allShreds.size then do
    let slotThreshold := highestSlotSeen - slotLookback
    let dropped := allShreds.toList.filter fun p => p.1 < slotThreshold
    let missed ← dropped.mapM fun p => do
      let sets ← incompleteFecSets order p.2
      pure (p.1, sets)
    pure (allShreds.filter fun slot _ => slotThreshold ≤ slot, missed.filter fun p => p.2 ≠ [])
  else
    pure (allShreds, [])

/-! ## Whole calls -/

/-- What a call leaves behind. -/
structure CallResult where
  state : ProxyState
  slotFecIndexesToIterate : List (Slot × FecSetIndex)
  deshreddedEntries : List Deshredded
  recoveredCount : Nat
  metrics : ServiceMetrics
  missedFecSets : List (Slot × List (FecSetIndex × Nat × Nat))

/-- Everything a call does before it prunes. -/
def reconstructShredsNoRetain (ledger : Ledger) (call : Call) (state : ProxyState) :
    Exec CallResult := do
  let ingested ← call.packets.foldlM (ingestPacket ledger) state.toIngest
  let work := sortDedup lexLe ingested.slotFecIndexesToIterate
  let (allShreds, count) ←
    work.foldlM (recoverStep ledger call.order) (ingested.allShreds, 0)
  let deshredded ← work.foldlM (deshredStep ledger) ⟨allShreds, [], ServiceMetrics.zero⟩
  pure
    { state := ⟨deshredded.allShreds, ingested.highestSlotSeen⟩
      slotFecIndexesToIterate := work
      deshreddedEntries := deshredded.deshreddedEntries
      recoveredCount := count
      metrics := { deshredded.metrics with recoveredCount := count }
      missedFecSets := [] }

/-- One call of the reconstructor. -/
def reconstructShreds (ledger : Ledger) (call : Call) (state : ProxyState) :
    Exec CallResult := do
  let result ← reconstructShredsNoRetain ledger call state
  let (allShreds, missedFecSets) ←
    prune call.order result.state.allShreds result.state.highestSlotSeen
  pure { result with state := { result.state with allShreds }, missedFecSets }

/-! ## Histories -/

/-- The state after some calls and the result of each of them. -/
structure History where
  state : ProxyState
  results : List CallResult

def History.initial : History := ⟨ProxyState.initial, []⟩

/-- Everything pushed so far, in order. -/
def History.pushed (history : History) : List Deshredded :=
  history.results.flatMap CallResult.deshreddedEntries

/-- Extend a history by one call of the given kind. -/
def History.extend (step : Call → ProxyState → Exec CallResult) (history : History)
    (call : Call) : Exec History := do
  let result ← step call history.state
  pure ⟨result.state, history.results ++ [result]⟩

/-- The history of a sequence of calls from the empty map. -/
def runCalls (ledger : Ledger) (calls : List Call) : Exec History :=
  calls.foldlM (History.extend (reconstructShreds ledger)) History.initial

/-- The history of the variant that never prunes. -/
def runCallsNoRetain (ledger : Ledger) (calls : List Call) : Exec History :=
  calls.foldlM (History.extend (reconstructShredsNoRetain ledger)) History.initial

end ShredstreamProxy
