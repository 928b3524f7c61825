import ShredstreamProxy.Deshred.ShredInfo
import ShredstreamProxy.Slot.Attempt
import ShredstreamProxy.Properties.Representation

/-!
# Shred positions in the buckets

The bucket of an erasure set should hold each position of the set once.  For data shreds the
tracker sees to it, since it takes a data shred only while its position is free.  A coding shred is
taken whenever its set is not flagged, and the bucket itself only recognizes copies that compare
equal, so that forged variants of a held coding shred are held beside it.

Main results:

- Theorem {lit}`countP_le_of_nodup`: the counters of a bucket that holds positions once do not wrap.
- Theorem {lit}`each_position_once_iff`: when every bucket of a run holds positions once.
- Theorem {lit}`forged_shred_held`: a run in which one does not.
-/

namespace ShredstreamProxy

open Exec KeyedFold

variable {ledger : Ledger} {slot : Slot}

/-! ## One slot -/

namespace SlotState

variable {σ σ' : SlotState} {s : Shred}

/-- A coding shred that compares equal to no held one of its position is held beside it. -/
theorem not_holdsOnce_of_forged {t : Shred} (ht : t ∈ σ.held s.fecSetIndex)
    (hpos : t.position = s.position)
    (hforged : ∀ t ∈ σ.held s.fecSetIndex, comparableEq ledger s t = false)
    (hin : σ.ingest ledger s = some σ') : ¬ σ'.HoldsOnce := by
  intro h
  have hnew : (σ.held s.fecSetIndex).any (comparableEq ledger s) = false := by
    simpa using hforged
  have hnodup := h s.fecSetIndex
  rw [held_ingest hin, if_pos rfl, insertComparable, hnew, if_neg Bool.false_ne_true,
    List.map_append, List.map_singleton] at hnodup
  have hdisjoint := (List.nodup_append.mp hnodup).2.2
  exact hdisjoint _ (List.mem_map.mpr ⟨t, ht, hpos⟩) _ (List.mem_singleton.mpr rfl) rfl

end SlotState

/-! ## Counting -/

/-- A bucket that holds positions once holds no more shreds of one kind than a slot can have. -/
theorem countP_le_of_nodup {l : List Shred} (hnodup : (l.map Shred.position).Nodup)
    (hadm : ∀ s ∈ l, s.Admitted) (τ : ShredType) :
    l.countP (fun s => s.shredType = τ) ≤ maxDataShredsPerSlot := by
  have hindexes : ((l.filter fun s => s.shredType = τ).map Shred.index).Nodup := by
    refine List.Nodup.map_on ?_ (hnodup.of_map.filter _)
    intro s hs t ht hst
    rw [List.mem_filter, decide_eq_true_eq] at hs ht
    exact List.inj_on_of_nodup_map hnodup hs.1 ht.1 (Prod.ext (hs.2.trans ht.2.symm) hst)
  have hsub : ((l.filter fun s => s.shredType = τ).map Shred.index) ⊆
      List.range maxDataShredsPerSlot := by
    intro i hi
    rcases List.mem_map.mp hi with ⟨s, hs, rfl⟩
    exact List.mem_range.mpr (hadm s (List.mem_filter.mp hs).1).index_lt
  have hle := (hindexes.subperm hsub).length_le
  rw [List.length_map, List.length_range, ← List.countP_eq_length_filter] at hle
  exact hle

/-- The counters of such a bucket are exact, in every iteration order. -/
theorem counters_of_nodup {l : List Shred} (hnodup : (l.map Shred.position).Nodup)
    (hadm : ∀ s ∈ l, s.Admitted) (order : IterOrder) :
    (getDataShredInfo (order.iter l)).numDataShreds = l.countP (fun s => s.shredType = .data) ∧
      (getDataShredInfo (order.iter l)).numCodingShreds =
        l.countP (fun s => s.shredType = .code) := by
  have hlt : ∀ τ : ShredType, l.countP (fun s => s.shredType = τ) < 2 ^ 16 := by
    intro τ
    exact (countP_le_of_nodup hnodup hadm τ).trans_lt (by decide)
  rw [numDataShreds_eq, numCodingShreds_eq, (order.perm l).countP_eq, (order.perm l).countP_eq,
    Nat.mod_eq_of_lt (hlt .data), Nat.mod_eq_of_lt (hlt .code)]
  exact ⟨rfl, rfl⟩

/-! ## The code -/

/-- The bucket of an erasure set. -/
def SlotMap.bucket (m : SlotMap) (slot : Slot) (f : FecSetIndex) : List Shred :=
  (m.entry slot).fecSets[f]?.getD []

/-- Every bucket holds each position at most once. -/
def SlotMap.BucketsOnce (m : SlotMap) : Prop :=
  ∀ slot f, ((m.bucket slot f).map Shred.position).Nodup

/-- Some call of the run is in state `b` after some of its packets. -/
def Ingesting (ledger : Ledger) (calls : List Call) (b : IngestState) : Prop :=
  ∃ before c after h earlier later, calls = before ++ c :: after ∧
    runCalls ledger before = .ok h ∧ c.packets = earlier ++ later ∧
    earlier.foldlM (ingestPacket ledger) h.state.toIngest = .ok b

/-- Every bucket holds each position at most once while packets are ingested. -/
def BucketsOnceIngesting (ledger : Ledger) (calls : List Call) : Prop :=
  ∀ b, Ingesting ledger calls b → b.allShreds.BucketsOnce

/-- Every bucket of the run holds each position at most once, so that the recovery test counts
positions and its counters do not wrap, and the tracker does not take a shred whose position is
held. -/
structure EachPositionOnce (ledger : Ledger) (calls : List Call) : Prop where
  ingesting : BucketsOnceIngesting ledger calls
  after : ∀ h, runCalls ledger calls = .ok h → h.state.allShreds.BucketsOnce
  counts : ∀ order m slot f, RecoverTurn ledger calls order m (slot, f) →
    (m.bucket slot f).length = ((m.bucket slot f).map Shred.position).toFinset.card ∧
    (getDataShredInfo (order.iter (m.bucket slot f))).numDataShreds =
      (m.bucket slot f).countP (fun s => s.shredType = .data) ∧
    (getDataShredInfo (order.iter (m.bucket slot f))).numCodingShreds =
      (m.bucket slot f).countP (fun s => s.shredType = .code)
  answers : ∀ b p s, Turn ledger calls b p → packetShred ledger p = some s → ¬ b.stale s.slot →
    s.position ∈ (b.allShreds.bucket s.slot s.fecSetIndex).map Shred.position →
    updateStateTracker s (b.allShreds.entry s.slot).stateTracker = .ok none

/-- A coding shred that is not stale, not of a flagged set and not of a deshredded index compares
equal to every held shred of its position. -/
def NoForgedCode (ledger : Ledger) (calls : List Call) : Prop :=
  ∀ b p c, Turn ledger calls b p → packetShred ledger p = some (.shredCode c) →
    ¬ b.stale c.commonHeader.slot →
    (b.allShreds.entry c.commonHeader.slot).stateTracker.alreadyRecoveredFecSets[
      c.commonHeader.fecSetIndex]? ≠ some true →
    (b.allShreds.entry c.commonHeader.slot).stateTracker.alreadyDeshredded[
      c.commonHeader.index]? ≠ some true →
    ∀ t ∈ b.allShreds.bucket c.commonHeader.slot c.commonHeader.fecSetIndex,
      t.position = (Shred.shredCode c).position → comparableEq ledger (.shredCode c) t = true

/-- A coding shred that is not stale and whose position is held belongs to a flagged set. -/
def NoHeldCode (ledger : Ledger) (calls : List Call) : Prop :=
  ∀ b p c, Turn ledger calls b p → packetShred ledger p = some (.shredCode c) →
    ¬ b.stale c.commonHeader.slot →
    (Shred.shredCode c).position ∈
      (b.allShreds.bucket c.commonHeader.slot c.commonHeader.fecSetIndex).map Shred.position →
    (b.allShreds.entry c.commonHeader.slot).stateTracker.alreadyRecoveredFecSets[
      c.commonHeader.fecSetIndex]? = some true

variable {calls : List Call}

/-- The states of a run are good at the turn of every packet. -/
theorem good_of_turn {b : IngestState} {p : Packet} (hturn : Turn ledger calls b p) :
    b.allShreds.Good := by
  rcases hturn with ⟨before, c, after, h, earlier, later, _, hh, _, hb⟩
  have hstart : h.state.toIngest.Refines h.state.view.toFeed :=
    ⟨(sim_of_runCalls hh).good, rfl, rfl, rfl⟩
  rcases @foldlM_ingestPacket_refines ledger _ _ hstart earlier with ⟨b', hb', hR⟩
  obtain rfl := Except.ok.inj (hb.symm.trans hb')
  exact hR.good

/-- Without a coding shred at a held position there is no forged one. -/
theorem NoHeldCode.noForgedCode (h : NoHeldCode ledger calls) : NoForgedCode ledger calls := by
  intro b p c hturn hp hfresh hset _ t ht hpos
  exact absurd (h b p c hturn hp hfresh (List.mem_map.mpr ⟨t, ht, hpos⟩)) hset

/-- Without forged coding shreds, positions are held once along the whole run. -/
theorem NoForgedCode.turnInvariant (h : NoForgedCode ledger calls) :
    TurnInvariant ledger calls fun _ σ => σ.HoldsOnce ∧ ∀ f, ∀ s ∈ σ.held f, s.Admitted where
  initial := fun _ => ⟨SlotState.HoldsOnce.initial, fun _ _ hs => absurd hs List.not_mem_nil⟩
  ingest := by
    intro b p s σ hturn hp hfresh hgood hσ hin
    refine ⟨hσ.1.ingest (hgood s.slot).2 ?_ hin, ?_⟩
    · intro htype t ht hpos
      cases s with
      | shredData d => contradiction
      | shredCode c =>
          have htaken := SlotState.ingest_eq_some_iff.mp hin
          exact h b p c hturn hp hfresh (getElem?_getD_eq_false.mp htaken.1)
            (getElem?_getD_eq_false.mp htaken.2.1) t ht hpos
    · intro f t ht
      rcases SlotState.mem_held_of_ingest hin ht with ht | ⟨rfl, _⟩
      · exact hσ.2 f t ht
      · exact packetShred_admitted hp
  recover := by
    intro order m w _ _ hσ
    exact ⟨hσ.1.recover order w.2, fun f s hs => hσ.2 f s (SlotState.mem_held_of_recover hs)⟩
  deshred := by
    intro m w _ _ hσ
    refine ⟨hσ.1.deshred w.2, ?_⟩
    intro f s hs
    rw [SlotState.held_deshred] at hs
    exact hσ.2 f s hs

/-- Without forged coding shreds, positions are held once while packets are ingested. -/
theorem NoForgedCode.bucketsOnceIngesting (h : NoForgedCode ledger calls) :
    BucketsOnceIngesting ledger calls := by
  rintro b ⟨before, c, after, history, earlier, later, rfl, hh, hpackets, hb⟩
  have hkeeps := h.turnInvariant.of_append.keeps_of_runCalls hh
  exact fun slot => ((h.turnInvariant.of_packets hh hkeeps hpackets hb).2 slot).1

/-- A turn of a packet is a moment of the ingest loop. -/
theorem Turn.ingesting {b : IngestState} {p : Packet} (h : Turn ledger calls b p) :
    Ingesting ledger calls b := by
  rcases h with ⟨before, c, after, history, earlier, later, hcalls, hh, hpackets, hb⟩
  exact ⟨before, c, after, history, earlier, p :: later, hcalls, hh, hpackets, hb⟩

/-- So is the moment after its step. -/
theorem Turn.ingesting_next {b b' : IngestState} {p : Packet} (h : Turn ledger calls b p)
    (hstep : ingestPacket ledger b p = .ok b') : Ingesting ledger calls b' := by
  rcases h with ⟨before, c, after, history, earlier, later, hcalls, hh, hpackets, hb⟩
  refine ⟨before, c, after, history, earlier ++ [p], later, hcalls, hh, ?_, ?_⟩
  · simp [hpackets]
  · rw [List.foldlM_append, hb, ok_bind, List.foldlM_cons, hstep]
    rfl

/-- The entry of a slot after a shred of it was accepted. -/
theorem entry_of_accepted {b b' : IngestState} {p : Packet} {s : Shred} {e : SlotEntry}
    (hp : packetShred ledger p = some s) (hfresh : ¬ b.stale s.slot)
    (hin : ingestShred ledger (b.allShreds.entry s.slot) s = .ok (some e))
    (hstep : ingestPacket ledger b p = .ok b') : b'.allShreds.entry s.slot = e := by
  rcases ingestPacket_cases hstep with
    ⟨hnone, _⟩ | ⟨s', hs, hcases⟩
  · exact absurd (hnone.symm.trans hp) (by simp)
  · obtain rfl : s = s' := Option.some.inj (hp.symm.trans hs)
    rcases hcases with ⟨hstale, _⟩ | ⟨_, hdrop, _⟩ | ⟨e', _, hin', rfl⟩
    · exact absurd hstale hfresh
    · exact absurd (hin.symm.trans hdrop) (by simp)
    · obtain rfl := Option.some.inj (Except.ok.inj (hin.symm.trans hin'))
      exact (SlotMap.entry_insert _ _ _ _).trans (if_pos rfl)

/-- If positions are held once at all times, no forged coding shred was accepted: it would be held
beside the genuine one. -/
theorem noForgedCode_of_bucketsOnce (h : BucketsOnceIngesting ledger calls) :
    NoForgedCode ledger calls := by
  intro b p c hturn hp hfresh hset hindex t ht hpos
  by_contra hforged
  rw [Bool.not_eq_true] at hforged
  have hgood := good_of_turn hturn
  have hnow := h b hturn.ingesting
  have hall : ∀ t' ∈ b.allShreds.bucket c.commonHeader.slot c.commonHeader.fecSetIndex,
      comparableEq ledger (.shredCode c) t' = false := by
    intro t' ht'
    rw [← Bool.not_eq_true]
    intro hequal
    have hpos' : t'.position = t.position := (comparableEq_position hequal).trans hpos.symm
    have hsame := List.inj_on_of_nodup_map (hnow _ _) ht' ht hpos'
    rw [hsame, hforged] at hequal
    contradiction
  -- the packet is accepted
  rcases @ingestShred_refines _ ledger (hgood c.commonHeader.slot).1 (.shredCode c)
    (packetShred_admitted hp) with ⟨o, hin, _, hview⟩
  rcases Option.map_eq_some_iff.mp (hview.trans (SlotState.ingest_eq_some_iff.mpr
    ⟨getElem?_getD_eq_false.mpr hset, getElem?_getD_eq_false.mpr hindex, by simp [Shred.shredType],
      rfl⟩)) with ⟨e, rfl, _⟩
  have hstart : b.Refines ⟨b.allShreds.view, b.highestSlotSeen, b.slotFecIndexesToIterate⟩ :=
    ⟨hgood, rfl, rfl, rfl⟩
  rcases @ingestPacket_refines ledger _ _ hstart p with ⟨b', hb', _⟩
  have hmore : ¬ e.view.HoldsOnce :=
    @SlotState.not_holdsOnce_of_forged ledger (b.allShreds.entry c.commonHeader.slot).view e.view
      (.shredCode c) t ht hpos hall hview.symm
  apply hmore
  intro f
  have hbucket := h b' (hturn.ingesting_next hb') c.commonHeader.slot f
  have hentry : b'.allShreds.entry c.commonHeader.slot = e := entry_of_accepted hp hfresh hin hb'
  unfold SlotMap.bucket at hbucket
  rw [hentry] at hbucket
  exact hbucket

/-- The tracker does not take a data shred whose position is held, nor any shred of a flagged set.
-/
theorem NoHeldCode.answers (h : NoHeldCode ledger calls) {b : IngestState} {p : Packet} {s : Shred}
    (hturn : Turn ledger calls b p) (hp : packetShred ledger p = some s) (hfresh : ¬ b.stale s.slot)
    (hheld : s.position ∈ (b.allShreds.bucket s.slot s.fecSetIndex).map Shred.position) :
    updateStateTracker s (b.allShreds.entry s.slot).stateTracker = .ok none := by
  have hgood := good_of_turn hturn s.slot
  rcases updateStateTracker_refines (fun f => (b.allShreds.entry s.slot).fecSets[f]?) hgood.1
    (packetShred_admitted hp) with ⟨o, ho, _, hview⟩
  have hnone : (b.allShreds.entry s.slot).view.record s = none := by
    rw [Option.eq_none_iff_forall_ne_some]
    intro σ hrecord
    rcases SlotState.record_eq_some_iff.mp hrecord with ⟨hrec, ⟨htype, _⟩ | ⟨htype, hfree, _⟩⟩
    · cases s with
      | shredData d => contradiction
      | shredCode c =>
          have hflag := getElem?_getD_eq_true.mpr (h b p c hturn hp hfresh hheld)
          exact absurd (hrec.symm.trans hflag) Bool.false_ne_true
    · rcases List.mem_map.mp hheld with ⟨t, ht, hpos⟩
      have hold := (hgood.2.held _ t ht).2.2 ((congrArg Prod.fst hpos).trans htype)
      have hindex : t.index = s.index := congrArg Prod.snd hpos
      rw [hindex, hfree] at hold
      contradiction
  have hmap : o.map (fun p => p.2.view fun f => (b.allShreds.entry s.slot).fecSets[f]?) = none :=
    hview.trans hnone
  rw [Option.map_eq_none_iff.mp hmap] at ho
  exact ho

/-- A coding shred is taken whenever its set is not flagged. -/
theorem noHeldCode_of_answers
    (h : ∀ b p s, Turn ledger calls b p → packetShred ledger p = some s → ¬ b.stale s.slot →
      s.position ∈ (b.allShreds.bucket s.slot s.fecSetIndex).map Shred.position →
      updateStateTracker s (b.allShreds.entry s.slot).stateTracker = .ok none) :
    NoHeldCode ledger calls := by
  intro b p c hturn hp hfresh hheld
  have hnone := h b p (.shredCode c) hturn hp hfresh hheld
  have hgood := good_of_turn hturn c.commonHeader.slot
  rcases updateStateTracker_refines (fun f => (b.allShreds.entry c.commonHeader.slot).fecSets[f]?)
    hgood.1 (packetShred_admitted hp) with ⟨o, ho, _, hview⟩
  obtain rfl := Except.ok.inj (hnone.symm.trans ho)
  apply getElem?_getD_eq_true.mp
  by_contra hflag
  have hunflagged : (b.allShreds.entry c.commonHeader.slot).view.recovered
      c.commonHeader.fecSetIndex = false := (Bool.not_eq_true _).mp hflag
  have htaken : (b.allShreds.entry c.commonHeader.slot).view.record (.shredCode c) =
      some (b.allShreds.entry c.commonHeader.slot).view :=
    SlotState.record_eq_some_iff.mpr ⟨hunflagged, Or.inl ⟨rfl, rfl⟩⟩
  exact absurd (hview.trans htaken) (by simp)

/-- In every run, buckets hold each position once, with all that follows from it, if and only if no
coding shred of an unflagged set arrives whose position is held; and the buckets alone do so if and
only if no such coding shred is accepted that compares unequal to the held one. -/
theorem each_position_once_iff (ledger : Ledger) (calls : List Call) :
    (EachPositionOnce ledger calls ↔ NoHeldCode ledger calls) ∧
      (BucketsOnceIngesting ledger calls ↔ NoForgedCode ledger calls) := by
  refine ⟨⟨fun h => noHeldCode_of_answers h.answers, ?_⟩, noForgedCode_of_bucketsOnce,
    fun h => h.bucketsOnceIngesting⟩
  intro h
  have hforged := h.noForgedCode
  have hinv := hforged.turnInvariant
  refine ⟨hforged.bucketsOnceIngesting, ?_, ?_, ?_⟩
  · exact fun history hh slot => (hinv.of_runCalls hh slot).1
  · intro order m slot f hturn
    rcases (hinv.of_recoverTurn hturn).2 slot with ⟨honce, hadm⟩
    have hnodup : ((m.bucket slot f).map Shred.position).Nodup := honce f
    refine ⟨?_, counters_of_nodup hnodup (hadm f) order⟩
    rw [List.toFinset_card_of_nodup hnodup, List.length_map]
  · exact fun b p s hturn hp hfresh hheld => h.answers hturn hp hfresh hheld

/-- A forged coding shred is held beside the genuine one. -/
theorem forged_shred_held :
    (∃ b, Ingesting Ledger.wide [Sample.call [2, 3]] b ∧
      (b.allShreds.bucket 3 0).map Shred.position = [(.code, 0), (.code, 0)]) ∧
    ¬ EachPositionOnce Ledger.wide [Sample.call [2, 3]] := by
  have hstart : History.initial.state.toIngest.Refines History.initial.state.view.toFeed :=
    ⟨SlotMap.good_empty, rfl, rfl, rfl⟩
  rcases @foldlM_ingestPacket_refines Ledger.wide _ _ hstart (Sample.call [2, 3]).packets with
    ⟨b, hb, hR⟩
  have hing : Ingesting Ledger.wide [Sample.call [2, 3]] b :=
    ⟨[], Sample.call [2, 3], [], History.initial, (Sample.call [2, 3]).packets, [], rfl, rfl,
      (List.append_nil _).symm, hb⟩
  have hheld : (b.allShreds.bucket 3 0).map Shred.position = [(.code, 0), (.code, 0)] := by
    change ((b.allShreds.view 3).held 0).map Shred.position = _
    rw [hR.view, show History.initial.state.view = _ from ProxyState.view_initial]
    decide +kernel
  refine ⟨⟨b, hing, hheld⟩, ?_⟩
  intro h
  have hnodup := h.ingesting b hing 3 0
  rw [hheld] at hnodup
  exact absurd hnodup (by decide)

end ShredstreamProxy
