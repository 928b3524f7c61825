import ShredstreamProxy.Forwarder.Forward

/-!
# Trace shreds among the forwarded packets

After a batch is sent, a forwarder that traces shreds decodes every packet that was not discarded
as a trace shred and converts the time it was created at.  Packets that do not decode, and trace
shreds without a time, are skipped, and a time in the future counts as no latency; but a time
that the system cannot represent panics, and the bytes come from anybody.

Main results:

- Theorem {lit}`countTraceShreds_eq_ok_iff`: when the trace shreds of a batch can be counted.
- Theorem {lit}`forwards_iff`: when a batch is forwarded and the call returns.
- Theorem {lit}`trace_shred_panics`: a packet that stops the forwarder.
-/

namespace ShredstreamProxy

open Exec

/-- Every destination gets the packets that are left, and the call returns without an error. -/
structure Forwards (f : Forwarding) (out : Forwarded) : Prop where
  sent : out.sent = f.localDestSockets.map fun s => (s.destination, f.leftData)
  returns : out.result = .ok (.ok ())

/-- If trace shreds are counted, then none that is left has a time that the system cannot
represent. -/
def TracesRepresentable (decode : Bytes → Option TraceShred)
    (toSystemTime : Timestamp → Option SystemTime) (f : Forwarding) : Prop :=
  f.debugTraceShred = true → ∀ data ∈ f.leftData, ∀ t createdAt,
    decode data = some t → t.createdAt = some createdAt → (toSystemTime createdAt).isSome

/-! ## Counting trace shreds -/

section CountTraceShreds

variable (decode : Bytes → Option TraceShred) (toSystemTime : Timestamp → Option SystemTime)

/-- Looking at one trace shred returns when its time can be represented. -/
theorem unwrap_createdAt_eq_ok_iff {t : TraceShred} :
    (do
      let createdAt ← unwrap t.createdAt
      let _ ← unwrap (toSystemTime createdAt)
      pure () : Exec Unit) = .ok () ↔
    ∃ createdAt, t.createdAt = some createdAt ∧ (toSystemTime createdAt).isSome := by
  simp only [bind_eq_ok_iff, unwrap_eq_ok_iff, pure_eq_ok, and_true, Option.isSome_iff_exists]

/-- Trace shreds are counted without a panic exactly when all their times can be represented. -/
theorem countTraceShreds_eq_ok_iff (packets : List SourcedPacket) :
    countTraceShreds decode toSystemTime packets = .ok () ↔
      ∀ data ∈ packets.filterMap (fun p => p.data), ∀ t createdAt,
        decode data = some t → t.createdAt = some createdAt → (toSystemTime createdAt).isSome := by
  unfold countTraceShreds
  rw [forM_eq_ok_iff]
  simp only [unwrap_createdAt_eq_ok_iff, List.mem_filter, List.mem_filterMap,
    Option.bind_eq_some_iff]
  constructor
  · rintro h data ⟨p, hp, hdata⟩ t createdAt hdecode hcreated
    rcases h t ⟨⟨p, hp, data, hdata, hdecode⟩, by simp [hcreated]⟩ with ⟨time, htime, hsome⟩
    obtain rfl : createdAt = time := Option.some.inj (hcreated.symm.trans htime)
    exact hsome
  · rintro h t ⟨⟨p, hp, data, hdata, hdecode⟩, hcreated⟩
    rcases Option.isSome_iff_exists.mp hcreated with ⟨createdAt, htime⟩
    exact ⟨createdAt, htime, h data ⟨p, hp, hdata⟩ t createdAt hdecode htime⟩

end CountTraceShreds

/-! ## The call -/

/-- For every batch, all destinations and all answers of these, the packets that are left reach
every destination and the call returns if and only if no trace shred that is looked at has a time
that the system cannot represent. -/
theorem forwards_iff (decode : Bytes → Option TraceShred)
    (toSystemTime : Timestamp → Option SystemTime) (packetsReceived : PacketsReceived)
    (f : Forwarding) :
    Forwards f (recvFromChannelAndSendMultipleDest decode toSystemTime packetsReceived (.ok f)) ↔
      TracesRepresentable decode toSystemTime f := by
  have hsent : (f.forward decode toSystemTime packetsReceived).sent =
      f.localDestSockets.map fun s => (s.destination, f.leftData) := by
    simp only [Forwarding.forward, f.packetsWithDest_eq]
  have hresult : (f.forward decode toSystemTime packetsReceived).result = .ok (.ok ()) ↔
      (f.debugTraceShred = true → countTraceShreds decode toSystemTime f.deduped = .ok ()) := by
    simp only [Forwarding.forward]
    split
    · rename_i htrace
      simp only [bind_eq_ok_iff, pure_eq_ok, and_true, htrace, forall_const]
      exact ⟨fun ⟨_, h⟩ => h, fun h => ⟨(), h⟩⟩
    · rename_i htrace
      simp [htrace]
  have htimes := countTraceShreds_eq_ok_iff decode toSystemTime f.deduped
  rw [show (f.deduped.filterMap fun p => p.data) = f.leftData from f.packetsWithDest_eq] at htimes
  constructor
  · intro h htrace
    exact htimes.mp (hresult.mp h.returns htrace)
  · intro h
    exact ⟨hsent, hresult.mpr fun htrace => htimes.mpr (h htrace)⟩

namespace Sample

/-- A trace shred that was created at the least time a timestamp can carry. -/
def traceBytes : Bytes :=
  [0x12, 0x0b, 0x08, 0x80, 0x80, 0x80, 0x80, 0x80, 0x80, 0x80, 0x80, 0x80, 0x01]

/-- Decoding, as far as that trace shred is concerned. -/
def decodeTrace (data : Bytes) : Option TraceShred :=
  if data = traceBytes then some ⟨some ⟨Int64.minValue, 0⟩⟩ else none

/-- The times of a system that counts seconds before and after the epoch in 63 bits. -/
def toSystemTime (timestamp : Timestamp) : Option SystemTime :=
  if timestamp.seconds = Int64.minValue then none
  else some (timestamp.seconds.toInt * 1000000000 + timestamp.nanos.toInt)

/-- A batch of that packet only, for one destination. -/
def tracedForwarding : Forwarding where
  packetBatch := [⟨⟨false, 13, traceBytes⟩, .v4 1⟩]
  deduped := [⟨⟨false, 13, traceBytes⟩, .v4 1⟩]
  numDeduped := 0
  dedupUsecs := 0
  localDestSockets := [⟨⟨.v4 2, 1⟩, .ok, 0⟩]
  shouldReconstructShreds := false
  debugTraceShred := true
  length_lt := by decide
  deduped_marks := by simp [Marks]
  numDeduped_eq := rfl
  data_isSome := by decide
  numFailed_le := by decide

end Sample

/-- The packet is forwarded, and then the forwarder panics. -/
theorem trace_shred_panics :
    (recvFromChannelAndSendMultipleDest Sample.decodeTrace Sample.toSystemTime (fun _ => none)
        (.ok Sample.tracedForwarding)).result = .error .unwrapNone ∧
      ¬ Forwards Sample.tracedForwarding
        (recvFromChannelAndSendMultipleDest Sample.decodeTrace Sample.toSystemTime (fun _ => none)
          (.ok Sample.tracedForwarding)) := by
  have hpanics : (recvFromChannelAndSendMultipleDest Sample.decodeTrace Sample.toSystemTime
      (fun _ => none) (.ok Sample.tracedForwarding)).result = .error .unwrapNone := by
    rfl
  constructor
  · exact hpanics
  · intro h
    nomatch hpanics.symm.trans h.returns

end ShredstreamProxy
