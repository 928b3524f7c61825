import ShredstreamProxy.Lib.Exec
import ShredstreamProxy.Metrics.Counters
import ShredstreamProxy.Protos

/-!
# Forwarding a batch

A forwarder thread takes a batch of packets, marks duplicates, sends what is left to every
destination and counts on the way.  The call is embedded with everything it does to the outside:
the additions to the shared counters in their order, the table of sources, the batch offered to
the reconstructor, and what is handed to every destination.

Main definitions:

- {lit}`Forwarding`: a batch, with what deduplication and sending answer for it.
- {lit}`recvFromChannelAndSendMultipleDest`: one call of a forwarder thread.
- {lit}`added`: the total that a call adds to a counter.

Main results:

- Theorem {lit}`Forwarding.packetsWithDest_eq`: every destination gets the packets that
  deduplication leaves.
- Theorem {lit}`current_applyAdds`: what the additions do to the shared counters.
- Theorem {lit}`added_flatMap`: the total of a loop is the sum of the totals of its iterations.
-/

namespace ShredstreamProxy

open Exec

/-- A received packet and where it came from. -/
structure SourcedPacket extends Packet where
  addr : IpAddr
deriving DecidableEq

/-- The answer of sending a batch to one destination. -/
inductive SendResult where
  | ok
  | ioError (numFailed : Nat)
deriving DecidableEq

/-- The packets that were not sent. -/
def SendResult.numFailed : SendResult → Nat
  | .ok => 0
  | .ioError numFailed => numFailed

/-- One destination, and how sending to it goes. -/
structure Send where
  destination : SocketAddr
  result : SendResult
  usecs : UInt64
deriving DecidableEq

/-- Deduplication only marks packets. -/
def Marks (p q : SourcedPacket) : Prop :=
  q.addr = p.addr ∧ q.size = p.size ∧ q.buffer = p.buffer ∧ (p.discard = true → q.discard = true)

/-- The input of one call: a batch, what deduplication makes of it, and the destinations with how
sending to them goes. -/
structure Forwarding where
  packetBatch : List SourcedPacket
  deduped : List SourcedPacket
  numDeduped : UInt64
  dedupUsecs : UInt64
  localDestSockets : List Send
  shouldReconstructShreds : Bool
  debugTraceShred : Bool
  /-- A batch fits into memory. -/
  length_lt : packetBatch.length < 2 ^ 64
  deduped_marks : List.Forall₂ Marks packetBatch deduped
  /-- The packets that deduplication counts are those that are marked in the end. -/
  numDeduped_eq : numDeduped.toNat = deduped.countP (·.discard)
  /-- Packets without data are marked. -/
  data_isSome : ∀ p ∈ deduped, p.discard = false → p.data.isSome
  numFailed_le : ∀ s ∈ localDestSockets, s.result.numFailed ≤ deduped.countP (!·.discard)

/-- Packets seen from each source: discarded and not discarded. -/
abbrev PacketsReceived := IpAddr → Option (UInt64 × UInt64)

/-- The channel to a forwarder thread is closed. -/
inductive RecvError where
  | recvError
deriving DecidableEq

/-- What a call does to the outside, and how it ends. -/
structure Forwarded where
  adds : List (Counter × UInt64)
  packetsReceived : PacketsReceived
  reconstructed : List (List SourcedPacket)
  sent : List (SocketAddr × List Bytes)
  result : Exec (Except RecvError Unit)

/-- Count one packet for its source. -/
def storeStats (packetsReceived : PacketsReceived) (packet : SourcedPacket) : PacketsReceived :=
  let discarded : UInt64 := if packet.discard then 1 else 0
  let notDiscarded : UInt64 := if packet.discard then 0 else 1
  Function.update packetsReceived packet.addr
    (match packetsReceived packet.addr with
      | some counts => some (counts.1 + discarded, counts.2 + notDiscarded)
      | none => some (discarded, notDiscarded))

/-- Vectors of one system call. -/
def maxIov : Nat := 1024

/-- What is counted for one destination when `len` packets are sent to it. -/
def sendAdds (len : Nat) (numDeduped : UInt64) (send : Send) : List (Counter × UInt64) :=
  [(.sendBatchSizeSum, UInt64.ofNat len), (.sendBatchCount, 1),
    (.saturatedIovCount, UInt64.ofNat (len / maxIov)),
    (.unsaturatedIovCount, UInt64.ofNat (len % maxIov))] ++
  (match send.result with
    | .ok => [(.successForward, UInt64.ofNat len), (.duplicate, numDeduped)]
    | .ioError numFailed =>
        [(.failForward, UInt64.ofNat len), (.duplicate, UInt64.ofNat numFailed)]) ++
  [(.batchSendTimeSpent, send.usecs)]

/-- Look at the creation time of the trace shreds among some packets. -/
def countTraceShreds (decode : Bytes → Option TraceShred)
    (toSystemTime : Timestamp → Option SystemTime) (packets : List SourcedPacket) : Exec Unit :=
  ((packets.filterMap fun p => p.data.bind decode).filter (·.createdAt.isSome)).forM fun t => do
    let createdAt ← unwrap t.createdAt
    let _ ← unwrap (toSystemTime createdAt)
    pure ()

namespace Forwarding

/-- The data that is sent to every destination. -/
def packetsWithDest (f : Forwarding) : List Bytes :=
  f.deduped.filterMap fun p => p.data

/-- What is done with a batch. -/
def forward (decode : Bytes → Option TraceShred) (toSystemTime : Timestamp → Option SystemTime)
    (packetsReceived : PacketsReceived) (f : Forwarding) : Forwarded where
  adds :=
    [(.received, UInt64.ofNat f.packetBatch.length), (.dedupTimeSpent, f.dedupUsecs)] ++
      f.localDestSockets.flatMap (sendAdds f.packetsWithDest.length f.numDeduped)
  packetsReceived := f.deduped.foldl storeStats packetsReceived
  reconstructed := if f.shouldReconstructShreds then [f.packetBatch] else []
  sent := f.localDestSockets.map fun send => (send.destination, f.packetsWithDest)
  result := do
    if f.debugTraceShred then countTraceShreds decode toSystemTime f.deduped
    pure (.ok ())

end Forwarding

/-- One call of a forwarder thread. -/
def recvFromChannelAndSendMultipleDest (decode : Bytes → Option TraceShred)
    (toSystemTime : Timestamp → Option SystemTime) (packetsReceived : PacketsReceived) :
    Except RecvError Forwarding → Forwarded
  | .error e =>
      { adds := []
        packetsReceived := packetsReceived
        reconstructed := []
        sent := []
        result := .ok (.error e) }
  | .ok f => f.forward decode toSystemTime packetsReceived

/-! ## What is sent -/

/-- The bytes of the packets that deduplication leaves, in their order. -/
def Forwarding.leftData (f : Forwarding) : List Bytes :=
  (f.deduped.filter (!·.discard)).map fun p => p.buffer.take p.size

/-- A packet has data when it is not discarded and its size is within its buffer. -/
theorem Packet.data_eq_some_iff {p : Packet} {data : Bytes} :
    p.data = some data ↔
      p.discard = false ∧ p.size ≤ p.buffer.length ∧ p.buffer.take p.size = data := by
  unfold Packet.data
  split
  · rename_i h
    simp only [Bool.or_eq_true, decide_eq_true_eq] at h
    constructor
    · intro hnone
      contradiction
    · rintro ⟨hdiscard, hsize, -⟩
      rcases h with h | h
      · rw [hdiscard] at h
        contradiction
      · omega
  · rename_i h
    simp only [Bool.or_eq_true, decide_eq_true_eq, not_or, not_lt, Bool.not_eq_true] at h
    rw [Option.some.injEq]
    exact ⟨fun hdata => ⟨h.1, h.2, hdata⟩, fun hdata => hdata.2.2⟩

/-- Deduplication leaves no packet without data, so what is sent is what is left. -/
theorem Forwarding.packetsWithDest_eq (f : Forwarding) : f.packetsWithDest = f.leftData := by
  have hdata : ∀ packets : List SourcedPacket,
      (∀ p ∈ packets, p.discard = false → p.data.isSome) →
      (packets.filterMap fun p => p.data) =
        (packets.filter (!·.discard)).map fun p => p.buffer.take p.size := by
    intro packets
    induction packets with
    | nil => exact fun _ => rfl
    | cons p packets ih =>
        intro h
        have hrest := ih fun q hq => h q (List.mem_cons_of_mem p hq)
        cases hdiscard : p.discard with
        | true =>
            have hnone : p.data = none := by simp [Packet.data, hdiscard]
            rw [List.filterMap_cons, List.filter_cons_of_neg (by simp [hdiscard]), ← hrest]
            simp only [hnone]
        | false =>
            rcases Option.isSome_iff_exists.mp (h p List.mem_cons_self hdiscard) with ⟨data, hp⟩
            rw [List.filterMap_cons, List.filter_cons_of_pos (by simp [hdiscard]), List.map_cons,
              (Packet.data_eq_some_iff.mp hp).2.2, ← hrest]
            simp only [hp]
  exact hdata f.deduped f.data_isSome

/-! ## Totals -/

/-- The total that some additions make to a counter. -/
def added (c : Counter) (adds : List (Counter × UInt64)) : Nat :=
  ((adds.filter fun a => a.1 = c).map fun a => a.2.toNat).sum

@[simp]
theorem added_nil (c : Counter) : added c [] = 0 :=
  rfl

@[simp]
theorem added_cons (c : Counter) (a : Counter × UInt64) (adds : List (Counter × UInt64)) :
    added c (a :: adds) = (if a.1 = c then a.2.toNat else 0) + added c adds := by
  unfold added
  by_cases h : a.1 = c
  · simp [h]
  · simp [h]

@[simp]
theorem added_append (c : Counter) (adds adds' : List (Counter × UInt64)) :
    added c (adds ++ adds') = added c adds + added c adds' := by
  simp [added]

/-- What a list of steps adds is the sum of what each step adds. -/
theorem added_flatMap {α : Type} (c : Counter) (l : List α) (g : α → List (Counter × UInt64)) :
    added c (l.flatMap g) = (l.map fun a => added c (g a)).sum := by
  induction l with
  | nil => rfl
  | cons a l ih => rw [List.flatMap_cons, added_append, ih, List.map_cons, List.sum_cons]

/-- Perform some additions on the shared counters. -/
def ShredMetrics.applyAdds (m : ShredMetrics) (adds : List (Counter × UInt64)) : ShredMetrics :=
  adds.foldl (fun m a => m.fetchAdd a.1 a.2) m

/-- A counter grows by the total, as far as it has room. -/
theorem current_applyAdds (m : ShredMetrics) (adds : List (Counter × UInt64)) (c : Counter) :
    (m.applyAdds adds).current c = m.current c + UInt64.ofNat (added c adds) := by
  unfold ShredMetrics.applyAdds
  induction adds generalizing m with
  | nil => simp
  | cons a adds ih =>
      rw [List.foldl_cons, ih, added_cons, current_fetchAdd, UInt64.ofNat_add]
      by_cases h : c = a.1
      · subst h
        simp [UInt64.add_assoc]
      · simp [h, Ne.symm h]

end ShredstreamProxy
