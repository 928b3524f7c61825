import ShredstreamProxy.Forwarder.Forward

/-!
# The accounting of a forwarded batch

What a forwarder counts for a batch, against what happened to its packets.  Received packets and
the sources they came from are counted once and exactly.  Duplicates, and packets that could not
be sent, are counted inside the loop over the destinations: duplicates once for every destination
that answered well, failed packets as duplicates, and all packets of a batch as failed when some
of them were.

Main results:

- Theorem {lit}`Forwarding.added_duplicate`: what is added to the counter of duplicates.
- Theorem {lit}`foldl_storeStats`: what is added for each source.
- Theorem {lit}`exact_accounting_iff`: when the counters of a batch are right.
- Theorem {lit}`duplicates_counted_twice`: a batch for which they are not.
-/

namespace ShredstreamProxy

/-! ## What a call counts -/

namespace Forwarding

variable (f : Forwarding)

/-- The packets of the batch. -/
def numPackets : Nat := f.packetBatch.length

/-- The packets that deduplication leaves. -/
def numLeft : Nat := f.deduped.countP (!·.discard)

/-- The destinations that answered well. -/
def numOk : Nat := f.localDestSockets.countP fun s => s.result = .ok

/-- The destinations that answered with an error. -/
def numErr : Nat := f.localDestSockets.countP fun s => s.result ≠ .ok

theorem length_deduped : f.deduped.length = f.numPackets :=
  f.deduped_marks.length_eq.symm

/-- A packet is a duplicate or left. -/
theorem numDeduped_add_numLeft : f.numDeduped.toNat + f.numLeft = f.numPackets := by
  rw [f.numDeduped_eq, ← f.length_deduped, List.length_eq_countP_add_countP (·.discard)]
  congr 1
  apply List.countP_congr
  simp

/-- Exactly the packets that are left have data to send. -/
theorem length_packetsWithDest : f.packetsWithDest.length = f.numLeft := by
  rw [f.packetsWithDest_eq, leftData, List.length_map, numLeft, List.countP_eq_length_filter]

theorem numLeft_lt : f.numLeft < 2 ^ 64 := by
  have hle := f.numDeduped_add_numLeft
  have hlt := f.length_lt
  unfold numPackets at hle
  omega

end Forwarding

/-! ## One destination -/

section SendAdds

variable {len : Nat} (hlen : len < 2 ^ 64) (numDeduped : UInt64) (s : Send)

/-- A send adds nothing to the packets received. -/
theorem added_received_sendAdds : added .received (sendAdds len numDeduped s) = 0 := by
  unfold sendAdds
  cases s.result <;> simp

include hlen

/-- A send that succeeds adds the packets left. -/
theorem added_successForward_sendAdds : added .successForward (sendAdds len numDeduped s) =
    if s.result = .ok then len else 0 := by
  unfold sendAdds
  cases s.result with
  | ok => simpa using hlen
  | ioError numFailed => simp

/-- A send that fails adds the packets left to the failed ones. -/
theorem added_failForward_sendAdds : added .failForward (sendAdds len numDeduped s) =
    if s.result = .ok then 0 else len := by
  unfold sendAdds
  cases s.result with
  | ok => simp
  | ioError numFailed => simpa using hlen

/-- A send that succeeds adds the duplicates, a send that fails the packets that failed. -/
theorem added_duplicate_sendAdds (hfailed : s.result.numFailed ≤ len) :
    added .duplicate (sendAdds len numDeduped s) =
      if s.result = .ok then numDeduped.toNat else s.result.numFailed := by
  unfold sendAdds
  cases hresult : s.result with
  | ok => simp
  | ioError numFailed =>
      rw [hresult] at hfailed
      simpa [SendResult.numFailed] using lt_of_le_of_lt hfailed hlen

end SendAdds

/-! ## All destinations -/

/-- A sum of two values counts how often each of them occurs. -/
theorem sum_map_ite {α : Type} (l : List α) (p : α → Prop) [DecidablePred p] (a b : Nat) :
    (l.map fun x => if p x then a else b).sum =
      l.countP (fun x => p x) * a + l.countP (fun x => ¬ p x) * b := by
  induction l with
  | nil => simp
  | cons x l ih =>
      rw [List.map_cons, List.sum_cons, ih]
      by_cases hx : p x
      · simp only [List.countP_cons, hx, if_true, decide_true, not_true, decide_false]
        simp only [Bool.false_eq_true, if_false]
        ring
      · simp only [List.countP_cons, hx, if_false, decide_false, not_false_iff, decide_true]
        simp only [Bool.false_eq_true, if_false, if_true]
        ring

/-- Sums whose terms compare are equal only if the terms are. -/
theorem eq_of_sum_map_eq {α : Type} {l : List α} {g h : α → Nat} (hle : ∀ x ∈ l, g x ≤ h x)
    (hsum : (l.map g).sum = (l.map h).sum) : ∀ x ∈ l, g x = h x := by
  induction l with
  | nil => exact fun x hx => absurd hx List.not_mem_nil
  | cons y l ih =>
      have hhead := hle y List.mem_cons_self
      have htail : (l.map g).sum ≤ (l.map h).sum :=
        List.sum_le_sum fun x hx => hle x (List.mem_cons_of_mem y hx)
      rw [List.map_cons, List.map_cons, List.sum_cons, List.sum_cons] at hsum
      intro x hx
      rcases List.mem_cons.mp hx with rfl | hx
      · omega
      · exact ih (fun x hx => hle x (List.mem_cons_of_mem y hx)) (by omega) x hx

namespace Forwarding

variable (decode : Bytes → Option TraceShred) (toSystemTime : Timestamp → Option SystemTime)
  (packetsReceived : PacketsReceived) (f : Forwarding)

theorem added_received :
    added .received (f.forward decode toSystemTime packetsReceived).adds = f.numPackets := by
  unfold forward
  rw [added_append, added_flatMap]
  simpa [added_received_sendAdds, numPackets] using f.length_lt

theorem added_successForward :
    added .successForward (f.forward decode toSystemTime packetsReceived).adds =
      f.numOk * f.numLeft := by
  unfold forward
  rw [added_append, added_flatMap, f.length_packetsWithDest]
  simp only [added_successForward_sendAdds f.numLeft_lt, sum_map_ite]
  simp [numOk]

theorem added_failForward :
    added .failForward (f.forward decode toSystemTime packetsReceived).adds =
      f.numErr * f.numLeft := by
  unfold forward
  rw [added_append, added_flatMap, f.length_packetsWithDest]
  simp only [added_failForward_sendAdds f.numLeft_lt, sum_map_ite]
  simp [numErr]

/-- Duplicates are counted for every destination that answered well; for the others, the packets
that were not sent are counted as duplicates. -/
theorem added_duplicate :
    added .duplicate (f.forward decode toSystemTime packetsReceived).adds =
      (f.localDestSockets.map fun s =>
        if s.result = .ok then f.numDeduped.toNat else s.result.numFailed).sum := by
  unfold forward
  rw [added_append, added_flatMap, f.length_packetsWithDest]
  have hsends :
      (f.localDestSockets.map fun s => added .duplicate (sendAdds f.numLeft f.numDeduped s)) =
      f.localDestSockets.map fun s =>
        if s.result = .ok then f.numDeduped.toNat else s.result.numFailed := by
    apply List.map_congr_left
    intro s hs
    exact added_duplicate_sendAdds f.numLeft_lt f.numDeduped s (f.numFailed_le s hs)
  rw [hsends]
  simp

end Forwarding

/-! ## Sources -/

/-- The counts for a source; a source without an entry has none. -/
def PacketsReceived.counts (packetsReceived : PacketsReceived) (addr : IpAddr) : UInt64 × UInt64 :=
  (packetsReceived addr).getD (0, 0)

/-- The packets of one source that are marked, or that are not. -/
def fromSource (packets : List SourcedPacket) (addr : IpAddr) (discarded : Bool) : Nat :=
  packets.countP fun p => p.addr = addr ∧ p.discard = discarded

theorem fromSource_cons (p : SourcedPacket) (packets : List SourcedPacket) (addr : IpAddr)
    (discarded : Bool) :
    fromSource (p :: packets) addr discarded =
      (if p.addr = addr ∧ p.discard = discarded then 1 else 0) +
        fromSource packets addr discarded := by
  unfold fromSource
  rw [List.countP_cons, Nat.add_comm]
  simp

/-- Storing a packet counts it for its own source. -/
theorem counts_storeStats (m : PacketsReceived) (p : SourcedPacket) (addr : IpAddr) :
    (PacketsReceived.counts (storeStats m p) addr) =
      ((m.counts addr).1 +
          UInt64.ofNat (if p.addr = addr ∧ p.discard = true then 1 else 0),
        (m.counts addr).2 +
          UInt64.ofNat (if p.addr = addr ∧ p.discard = false then 1 else 0)) := by
  unfold PacketsReceived.counts storeStats
  by_cases haddr : addr = p.addr
  · subst haddr
    cases hm : m p.addr with
    | none => cases hd : p.discard <;> simp
    | some counts => cases hd : p.discard <;> simp
  · simp [haddr, Ne.symm haddr]

/-- Every packet is counted for its source. -/
theorem foldl_storeStats (m : PacketsReceived) (packets : List SourcedPacket) (addr : IpAddr) :
    PacketsReceived.counts (packets.foldl storeStats m) addr =
      ((m.counts addr).1 + UInt64.ofNat (fromSource packets addr true),
        (m.counts addr).2 + UInt64.ofNat (fromSource packets addr false)) := by
  induction packets generalizing m with
  | nil => simp [fromSource]
  | cons p packets ih =>
      rw [List.foldl_cons, ih, counts_storeStats, fromSource_cons, fromSource_cons,
        UInt64.ofNat_add, UInt64.ofNat_add, UInt64.add_assoc, UInt64.add_assoc]

/-- The packets of all sources together. -/
theorem sum_fromSource (packets : List SourcedPacket) :
    ((packets.map (·.addr)).dedup.map fun addr =>
      fromSource packets addr true + fromSource packets addr false).sum = packets.length := by
  have hcount : ∀ addr, fromSource packets addr true + fromSource packets addr false =
      (packets.map (·.addr)).count addr := by
    intro addr
    induction packets with
    | nil => rfl
    | cons p packets ih =>
        rw [fromSource_cons, fromSource_cons, List.map_cons, List.count_cons, ← ih]
        by_cases haddr : p.addr = addr
        · cases hd : p.discard <;> simp [haddr] <;> omega
        · simp [haddr]
  simp only [hcount]
  rw [List.sum_map_count_dedup_eq_length, List.length_map]

/-! ## The accounts -/

/-- The counters of a batch are right: every packet is received once, every duplicate is counted
once, the packets that were sent and those that failed are counted over all destinations, and the
packets are counted for their sources. -/
structure ExactAccounting (packetsReceived : PacketsReceived) (f : Forwarding)
    (out : Forwarded) : Prop where
  received : added .received out.adds = f.numPackets
  duplicate : added .duplicate out.adds = f.numDeduped.toNat
  successForward : added .successForward out.adds =
    (f.localDestSockets.map fun s => f.numLeft - s.result.numFailed).sum
  failForward : added .failForward out.adds =
    (f.localDestSockets.map fun s => s.result.numFailed).sum
  together : added .successForward out.adds + added .failForward out.adds =
    f.localDestSockets.length * f.numLeft
  sources : ∀ addr, out.packetsReceived.counts addr =
    ((packetsReceived.counts addr).1 + UInt64.ofNat (fromSource f.deduped addr true),
      (packetsReceived.counts addr).2 + UInt64.ofNat (fromSource f.deduped addr false))
  sources_total : ((f.deduped.map (·.addr)).dedup.map fun addr =>
    fromSource f.deduped addr true + fromSource f.deduped addr false).sum = f.numPackets

/-- Every destination that answers with an error reports all packets as failed, and the duplicates
counted for the other ones with the packets counted for these are as many as the duplicates. -/
structure CountsMatch (f : Forwarding) : Prop where
  all_failed : ∀ s ∈ f.localDestSockets, s.result ≠ .ok → s.result.numFailed = f.numLeft
  duplicates : f.numOk * f.numDeduped.toNat + f.numErr * f.numLeft = f.numDeduped.toNat

namespace Forwarding

variable (f : Forwarding)

/-- A send succeeds or fails. -/
theorem numOk_add_numErr : f.numOk + f.numErr = f.localDestSockets.length := by
  unfold numOk numErr
  rw [List.length_eq_countP_add_countP fun s : Send => s.result = .ok]
  congr 1
  apply List.countP_congr
  simp

/-- What the sends that fail add, as a sum over the destinations. -/
theorem numErr_mul_numLeft : f.numErr * f.numLeft =
    (f.localDestSockets.map fun s => if s.result = .ok then 0 else f.numLeft).sum := by
  rw [sum_map_ite]
  simp [numErr]

/-- The failed packets of one destination are at most what is counted as failed for it. -/
theorem numFailed_le_counted {s : Send} (hs : s ∈ f.localDestSockets) :
    s.result.numFailed ≤ if s.result = .ok then 0 else f.numLeft := by
  split
  · rename_i hok
    rw [hok]
    exact le_rfl
  · exact f.numFailed_le s hs

end Forwarding

namespace CountsMatch

variable {f : Forwarding}

/-- The number of packets that failed, when a failing send fails for all. -/
theorem numFailed_eq (hall : ∀ s ∈ f.localDestSockets, s.result ≠ .ok →
    s.result.numFailed = f.numLeft) {s : Send} (hs : s ∈ f.localDestSockets) :
    s.result.numFailed = if s.result = .ok then 0 else f.numLeft := by
  split
  · rename_i hok
    rw [hok]
    rfl
  · rename_i herr
    exact hall s hs herr

/-- What is added to the duplicates when errors report all packets. -/
theorem sum_duplicate (hall : ∀ s ∈ f.localDestSockets, s.result ≠ .ok →
    s.result.numFailed = f.numLeft) :
    (f.localDestSockets.map fun s =>
      if s.result = .ok then f.numDeduped.toNat else s.result.numFailed).sum =
        f.numOk * f.numDeduped.toNat + f.numErr * f.numLeft := by
  have hsends : (f.localDestSockets.map fun s =>
      if s.result = .ok then f.numDeduped.toNat else s.result.numFailed) =
        f.localDestSockets.map fun s =>
          if s.result = .ok then f.numDeduped.toNat else f.numLeft := by
    apply List.map_congr_left
    intro s hs
    split
    · rfl
    · rename_i herr
      exact hall s hs herr
  rw [hsends, sum_map_ite]
  simp [Forwarding.numOk, Forwarding.numErr]

end CountsMatch

/-- For every batch, every outcome of deduplication, all destinations and all answers of these, the
accounting of a call is exact if and only if the counts match. -/
theorem exact_accounting_iff (decode : Bytes → Option TraceShred)
    (toSystemTime : Timestamp → Option SystemTime) (packetsReceived : PacketsReceived)
    (f : Forwarding) :
    ExactAccounting packetsReceived f
      (recvFromChannelAndSendMultipleDest decode toSystemTime packetsReceived (.ok f)) ↔
    CountsMatch f := by
  change ExactAccounting packetsReceived f (f.forward decode toSystemTime packetsReceived) ↔ _
  constructor
  · intro h
    have hall : ∀ s ∈ f.localDestSockets, s.result ≠ .ok → s.result.numFailed = f.numLeft := by
      have hfail := h.failForward
      rw [f.added_failForward, f.numErr_mul_numLeft] at hfail
      intro s hs herr
      have heq := eq_of_sum_map_eq (fun s hs => f.numFailed_le_counted hs) hfail.symm s hs
      rwa [if_neg herr] at heq
    refine ⟨hall, ?_⟩
    rw [← CountsMatch.sum_duplicate hall, ← f.added_duplicate decode toSystemTime packetsReceived]
    exact h.duplicate
  · intro h
    have hfailed : (f.localDestSockets.map fun s => s.result.numFailed) =
        f.localDestSockets.map fun s => if s.result = .ok then 0 else f.numLeft :=
      List.map_congr_left fun s hs => CountsMatch.numFailed_eq h.all_failed hs
    have hsent : (f.localDestSockets.map fun s => f.numLeft - s.result.numFailed) =
        f.localDestSockets.map fun s => if s.result = .ok then f.numLeft else 0 := by
      apply List.map_congr_left
      intro s hs
      rw [CountsMatch.numFailed_eq h.all_failed hs]
      split <;> omega
    refine ⟨f.added_received _ _ _, ?_, ?_, ?_, ?_, foldl_storeStats _ _, ?_⟩
    · rw [f.added_duplicate, CountsMatch.sum_duplicate h.all_failed]
      exact h.duplicates
    · rw [f.added_successForward, hsent, sum_map_ite]
      simp [Forwarding.numOk]
    · rw [f.added_failForward, hfailed, f.numErr_mul_numLeft]
    · rw [f.added_successForward, f.added_failForward, ← Nat.add_mul, f.numOk_add_numErr]
    · rw [sum_fromSource, f.length_deduped]

/-- Two packets of the same source with the same byte, of which the second one is marked, for two
destinations that answer well. -/
def Sample.forwarding : Forwarding where
  packetBatch := [⟨⟨false, 1, [0]⟩, .v4 1⟩, ⟨⟨false, 1, [0]⟩, .v4 1⟩]
  deduped := [⟨⟨false, 1, [0]⟩, .v4 1⟩, ⟨⟨true, 1, [0]⟩, .v4 1⟩]
  numDeduped := 1
  dedupUsecs := 0
  localDestSockets := [⟨⟨.v4 2, 1⟩, .ok, 0⟩, ⟨⟨.v4 3, 1⟩, .ok, 0⟩]
  shouldReconstructShreds := false
  debugTraceShred := false
  length_lt := by decide
  deduped_marks := by simp [Marks]
  numDeduped_eq := rfl
  data_isSome := by decide
  numFailed_le := by decide

/-- The only duplicate of the batch is counted for both destinations. -/
theorem duplicates_counted_twice :
    added .duplicate (recvFromChannelAndSendMultipleDest (fun _ => none) (fun _ => some 0)
        (fun _ => none) (.ok Sample.forwarding)).adds = 2 ∧
      ¬ ExactAccounting (fun _ => none) Sample.forwarding
        (recvFromChannelAndSendMultipleDest (fun _ => none) (fun _ => some 0) (fun _ => none)
          (.ok Sample.forwarding)) := by
  refine ⟨by decide, ?_⟩
  intro h
  exact absurd h.duplicate (by decide)

end ShredstreamProxy
