import ShredstreamProxy.Lib.PartialMap
import ShredstreamProxy.Properties.Buckets

/-!
# The recovered count

A call returns the number of shreds that recovery brought, and adds it to the metric for recovered
data shreds.  Recovery answers with the missing data shreds of a set and with its missing coding
shreds, and the tracker takes both.  The count is therefore the number of data positions gained in
the recovery phase plus the number of coding shreds among the answers.

Main results:

- Theorem {lit}`SlotState.recover_count`: the count of one attempt.
- Theorem {lit}`recoverStep_count`: the count of a recovery loop.
- Theorem {lit}`recovered_count_iff`: when the count is the number of positions gained.
- Theorem {lit}`coding_shred_counted`: a call in which it is not.
-/

namespace ShredstreamProxy

open Exec KeyedFold PartialMap

/-! ## One attempt -/

/-- The coding shreds among the results of a recovery. -/
def codingItems (items : List (Option Shred)) : Nat :=
  items.countP fun item => item.any fun s => s.shredType = .code

namespace SlotState

variable {ledger : Ledger} {order : IterOrder} {σ : SlotState} {slot : Slot}

/-- Recording a result of an unflagged set counts a coding shred, or a position gained. -/
theorem recordItem_count {item : Option Shred} (n : Nat)
    (h : ∀ s, item = some s → σ.recovered s.fecSetIndex = false) :
    ((recordItem (σ, n) item).2 : ℕ∞) =
      n + (gained σ.dataShreds (recordItem (σ, n) item).1.dataShreds).encard +
        codingItems [item] := by
  cases item with
  | none => simp [recordItem, gained_self, codingItems]
  | some s =>
      have hrec := h s rfl
      cases hrecord : σ.record s with
      | none =>
          -- only a data shred of a known position is not recorded
          have hstep : recordItem (σ, n) (some s) = (σ, n) := by simp [recordItem, hrecord]
          have htype : s.shredType ≠ .code := by
            intro htype
            rw [record_eq_some_iff.mpr ⟨hrec, Or.inl ⟨htype, rfl⟩⟩] at hrecord
            contradiction
          simp [hstep, gained_self, codingItems, htype]
      | some σ' =>
          have hstep : recordItem (σ, n) (some s) = (σ', n + 1) := by simp [recordItem, hrecord]
          rw [hstep]
          rcases (record_eq_some_iff.mp hrecord).2 with ⟨htype, rfl⟩ | ⟨htype, hfree, rfl⟩
          · simp [gained_self, codingItems, htype]
          · simp [gained_update hfree, codingItems, htype]

/-- Recording the answer counts the positions gained and the coding shreds in it. -/
theorem foldl_recordItem_count {items : List (Option Shred)} (n : Nat)
    (h : ∀ s, some s ∈ items → σ.recovered s.fecSetIndex = false) :
    ((items.foldl recordItem (σ, n)).2 : ℕ∞) =
      n + (gained σ.dataShreds (items.foldl recordItem (σ, n)).1.dataShreds).encard +
        codingItems items := by
  induction items generalizing σ n with
  | nil => simp [gained_self, codingItems]
  | cons item items ih =>
      have hhead := recordItem_spec σ n item
      have htail :=
        foldl_recordItem_spec (recordItem (σ, n) item).1 (recordItem (σ, n) item).2 items
      have hcount := @recordItem_count σ item n fun s hs => h s (by simp [hs])
      have hrest := @ih (recordItem (σ, n) item).1 (recordItem (σ, n) item).2 ?_
      · rw [Prod.mk.eta] at htail hrest
        rw [List.foldl_cons, hrest, hcount, encard_gained_trans hhead.1.mono htail.1.mono]
        have hsplit : codingItems (item :: items) = codingItems [item] + codingItems items := by
          unfold codingItems
          rw [← List.singleton_append, List.countP_append]
        rw [hsplit, Nat.cast_add]
        ac_rfl
      · intro s hs
        rw [hhead.1.recovered_eq]
        exact h s (List.mem_cons_of_mem _ hs)

/-- The coding shreds that the ledger's recovery answers with on the shreds held for set `f`. -/
def codingAnswers (ledger : Ledger) (order : IterOrder) (σ : SlotState) (f : FecSetIndex) : Nat :=
  if σ.callsRecover order f then ((σ.recoverAnswer ledger order f).elim 0 codingItems) else 0

theorem codingAnswers_congr {σ' : SlotState} {f : FecSetIndex} (h : σ.held f = σ'.held f) :
    σ.codingAnswers ledger order f = σ'.codingAnswers ledger order f := by
  unfold codingAnswers callsRecover recoverAnswer
  rw [h]

/-- An attempt on an unflagged set counts the positions it gains and the coding shreds it gets. -/
theorem recover_count (hinv : σ.Inv slot) {f : FecSetIndex} (hflag : σ.recovered f = false) :
    ((σ.recover ledger order f).2 : ℕ∞) =
      (gained σ.dataShreds (σ.recover ledger order f).1.dataShreds).encard +
        σ.codingAnswers ledger order f := by
  unfold codingAnswers
  cases hcalls : σ.callsRecover order f with
  | false =>
      have hsame : σ.recover ledger order f = (σ.touch f, 0) := by
        unfold callsRecover at hcalls
        simp [recover, hcalls]
      simp [hsame, touch, gained_self]
  | true =>
      cases hanswer : σ.recoverAnswer ledger order f with
      | none =>
          have hsame : σ.recover ledger order f = (σ.touch f, 0) := by
            unfold callsRecover at hcalls
            unfold recoverAnswer at hanswer
            simp [recover, hcalls, hanswer]
          simp [hsame, touch, gained_self]
      | some items =>
          have hitems : ∀ s, some s ∈ items → (σ.touch f).recovered s.fecSetIndex = false := by
            intro s hs
            rw [(hinv.answer_admitted hcalls hanswer hs).2.2]
            exact hflag
          have hcount := foldl_recordItem_count 0 hitems
          have habsorb : σ.recover ledger order f = (σ.touch f).absorb f items := by
            unfold callsRecover at hcalls
            unfold recoverAnswer at hanswer
            simp [recover, hcalls, hanswer]
          rw [Nat.cast_zero, zero_add] at hcount
          rw [habsorb, absorb]
          split
          · exact hcount
          · exact hcount

end SlotState

/-! ## The recovery loop -/

/-- The data shred stored at a position of a slot. -/
def SlotMap.dataAt (m : SlotMap) (p : Slot × Nat) : Option Shred :=
  (m.view p.1).dataShreds p.2

variable {ledger : Ledger} {order : IterOrder} {m m' : SlotMap}

/-- What one slot gains, the whole map gains at that slot. -/
theorem encard_gained_dataAt {slot : Slot} {σ : SlotState}
    (hview : m'.view = Function.update m.view slot σ) :
    (gained m.dataAt m'.dataAt).encard = (gained (m.view slot).dataShreds σ.dataShreds).encard := by
  have himage : gained m.dataAt m'.dataAt =
      Prod.mk slot '' gained (m.view slot).dataShreds σ.dataShreds := by
    ext ⟨slot', i⟩
    simp only [gained, SlotMap.dataAt, hview, Set.mem_ofPred_eq, Set.mem_image, Prod.mk.injEq]
    by_cases hs : slot' = slot
    · subst hs
      simp
    · simp [hs, Ne.symm hs]
  rw [himage, (Prod.mk_right_injective slot).encard_image]

/-- An attempt loses no data shred. -/
theorem extends_of_recover {w : Slot × FecSetIndex} (hview : m'.view =
    Function.update m.view w.1 ((m.view w.1).recover ledger order w.2).1) :
    Extends m.dataAt m'.dataAt := by
  have hspec := SlotState.recover_spec ledger order (m.view w.1) w.2
  rintro ⟨slot, i⟩ s hs
  unfold SlotMap.dataAt at hs ⊢
  rw [hview]
  by_cases hslot : slot = w.1
  · subst hslot
    simpa using hspec.mono i s hs
  · simpa [hslot] using hs

/-- The other sets keep what they hold, and their flags. -/
theorem other_of_recover {v w : Slot × FecSetIndex} (hview : m'.view =
    Function.update m.view w.1 ((m.view w.1).recover ledger order w.2).1) (hne : v ≠ w) :
    (m'.view v.1).held v.2 = (m.view v.1).held v.2 ∧
      (m'.view v.1).recovered v.2 = (m.view v.1).recovered v.2 := by
  have hspec := SlotState.recover_spec ledger order (m.view w.1) w.2
  rw [hview]
  by_cases hslot : v.1 = w.1
  · have hset : v.2 ≠ w.2 := fun hset => hne (Prod.ext hslot hset)
    rw [hslot, Function.update_self, SlotState.held_recover, hspec.recovered_eq]
    refine ⟨if_neg fun hh => hset hh.1, ?_⟩
    split
    · exact Function.update_of_ne hset _ _
    · rfl
  · rw [Function.update_of_ne hslot]
    exact ⟨rfl, rfl⟩

/-- A recovery loop over unflagged sets counts the positions it gains and the coding shreds among
the answers; what is held for a set does not change before its turn. -/
theorem recoverStep_count {work : List (Slot × FecSetIndex)} (hgood : m.Good)
    (hlt : ∀ w ∈ work, w.2 < maxDataShredsPerSlot) (hnodup : work.Nodup)
    (hflag : ∀ w ∈ work, (m.view w.1).recovered w.2 = false) {n : Nat} {r : SlotMap × Nat}
    (hr : work.foldlM (recoverStep ledger order) (m, n) = .ok r) :
    Extends m.dataAt r.1.dataAt ∧
      (r.2 : ℕ∞) = n + (gained m.dataAt r.1.dataAt).encard +
        ((work.map fun w => (m.view w.1).codingAnswers ledger order w.2).sum : ℕ) := by
  induction work generalizing m n with
  | nil =>
      obtain rfl : (m, n) = r := Except.ok.inj hr
      exact ⟨Extends.refl _, by simp [gained_self]⟩
  | cons w work ih =>
      rw [List.foldlM_cons] at hr
      rcases bind_eq_ok_iff.mp hr with ⟨⟨m₁, n₁⟩, hstep, hrest⟩
      rcases view_recoverStep hgood (hlt w List.mem_cons_self) hstep with ⟨hgood₁, hview, hcount⟩
      have hgrows : Extends m.dataAt m₁.dataAt := extends_of_recover hview
      have hother : ∀ v ∈ work, (m₁.view v.1).held v.2 = (m.view v.1).held v.2 ∧
          (m₁.view v.1).recovered v.2 = (m.view v.1).recovered v.2 := by
        intro v hv
        apply other_of_recover hview
        rintro rfl
        exact (List.nodup_cons.mp hnodup).1 hv
      rcases ih hgood₁ (fun v hv => hlt v (List.mem_cons_of_mem w hv)) (List.nodup_cons.mp hnodup).2
        (fun v hv => (hother v hv).2.trans (hflag v (List.mem_cons_of_mem w hv))) hrest with
        ⟨hgrows', hcount'⟩
      refine ⟨hgrows.trans hgrows', ?_⟩
      have hsame : (work.map fun v => (m₁.view v.1).codingAnswers ledger order v.2) =
          work.map fun v => (m.view v.1).codingAnswers ledger order v.2 :=
        List.map_congr_left fun v hv => SlotState.codingAnswers_congr (hother v hv).1
      have hattempt : (((m.view w.1).recover ledger order w.2).2 : ℕ∞) =
          (gained m.dataAt m₁.dataAt).encard + (m.view w.1).codingAnswers ledger order w.2 := by
        rw [encard_gained_dataAt hview]
        exact SlotState.recover_count (hgood w.1).2 (hflag w List.mem_cons_self)
      rw [hcount', hcount, hsame, encard_gained_trans hgrows hgrows', List.map_cons, List.sum_cons,
        Nat.cast_add, Nat.cast_add, hattempt]
      ring

/-- The sets of the work list are not flagged when the recovery loop starts. -/
theorem Feed.unflagged_of_mem_work {feed : Feed} {shreds : List Shred}
    (h : ∀ w ∈ feed.work, (feed.slots w.1).recovered w.2 = false) :
    ∀ w ∈ (shreds.foldl (Feed.ingest ledger) feed).work,
      ((shreds.foldl (Feed.ingest ledger) feed).slots w.1).recovered w.2 = false := by
  induction shreds generalizing feed with
  | nil => exact h
  | cons s shreds ih =>
      apply ih
      unfold Feed.ingest
      split
      · exact h
      · split
        · exact h
        · rename_i σ hin
          rcases SlotState.ingest_eq_some_iff.mp hin with ⟨hrec, _, _, hσ⟩
          intro w hw
          have hsame : (Function.update feed.slots s.slot σ w.1).recovered =
              (feed.slots w.1).recovered := by
            by_cases hslot : w.1 = s.slot
            · rw [hslot, Function.update_self, hσ]
            · rw [Function.update_of_ne hslot]
          dsimp only
          rw [hsame]
          rcases List.mem_append.mp hw with hw | hw
          · exact h w hw
          · obtain rfl := List.mem_singleton.mp hw
            exact hrec

/-! ## Calls -/

/-- The status of a data position of a slot. -/
def SlotMap.statusAt (m : SlotMap) (p : Slot × Nat) : Option ShredStatus :=
  (m.entry p.1).stateTracker.dataStatus[p.2]?

/-- The positions whose status changed from unknown to known. -/
def becameKnown (before after : SlotMap) : Set (Slot × Nat) :=
  {p | before.statusAt p = some .unknown ∧
    ∃ status, after.statusAt p = some status ∧ status ≠ .unknown}

/-- The call starts its recovery phase in state `b` and ends it with the tracked slots `after`. -/
def RecoveryPhase (ledger : Ledger) (c : Call) (state : ProxyState) (b : IngestState)
    (after : SlotMap) : Prop :=
  c.packets.foldlM (ingestPacket ledger) state.toIngest = .ok b ∧
    ∃ n, (sortDedup lexLe b.slotFecIndexesToIterate).foldlM (recoverStep ledger c.order)
      (b.allShreds, 0) = .ok (after, n)

/-- The call returns, and adds to the metric of recovered data shreds, the number of data positions
that became known in its recovery phase. -/
def CountsGained (ledger : Ledger) (c : Call) (state : ProxyState) : Prop :=
  ∃ r b after, reconstructShreds ledger c state = .ok r ∧ RecoveryPhase ledger c state b after ∧
    r.metrics.recoveredCount = r.recoveredCount ∧
    (becameKnown b.allShreds after).encard = r.recoveredCount

/-- No recovery that the call makes answers with a coding shred. -/
def NoCodingAnswer (ledger : Ledger) (c : Call) (state : ProxyState) : Prop :=
  ∀ b, c.packets.foldlM (ingestPacket ledger) state.toIngest = .ok b →
    ∀ w ∈ b.slotFecIndexesToIterate, ∀ items,
      needsRecovery (getDataShredInfo (c.order.iter (b.allShreds.bucket w.1 w.2)))
        (b.allShreds.bucket w.1 w.2).length = true →
      ledger.recover (sortForRecovery (c.order.iter (b.allShreds.bucket w.1 w.2))) = some items →
      ∀ k, some (.shredCode k) ∉ items

/-- A position is unknown when nothing is stored there. -/
theorem statusOf_eq_unknown_iff {o : Option Shred} : statusOf o = .unknown ↔ o = none := by
  cases o with
  | none => simp [statusOf]
  | some s => cases hc : s.completes <;> simp [statusOf, hc]

/-- A position becomes known when its data shred is stored. -/
theorem becameKnown_eq_gained (h : m.Good) (h' : m'.Good) :
    becameKnown m m' = gained m.dataAt m'.dataAt := by
  ext ⟨slot, i⟩
  have hstatus := (h slot).1.status
  have hstatus' := (h' slot).1.status
  have hlength : (m.entry slot).stateTracker.dataShreds.length =
      (m'.entry slot).stateTracker.dataShreds.length :=
    (h slot).1.dataShreds_length.trans (h' slot).1.dataShreds_length.symm
  simp only [becameKnown, gained, SlotMap.statusAt, Set.mem_ofPred_eq, hstatus, hstatus',
    List.getElem?_map]
  change _ ↔ (m.entry slot).stateTracker.dataShreds[i]?.join = none ∧
    (m'.entry slot).stateTracker.dataShreds[i]?.join ≠ none
  by_cases hi : i < (m.entry slot).stateTracker.dataShreds.length
  · rw [List.getElem?_eq_getElem hi, List.getElem?_eq_getElem (hlength ▸ hi)]
    simp [statusOf_eq_unknown_iff]
  · rw [List.getElem?_eq_none (Nat.le_of_not_lt hi),
      List.getElem?_eq_none (hlength ▸ Nat.le_of_not_lt hi)]
    simp

/-- No coding shred is counted when there is none. -/
theorem codingItems_eq_zero_iff {items : List (Option Shred)} :
    codingItems items = 0 ↔ ∀ k, some (.shredCode k) ∉ items := by
  unfold codingItems
  rw [List.countP_eq_zero]
  constructor
  · intro h k hk
    exact absurd rfl (h _ hk)
  · intro h item hitem
    rcases item with _ | (k | d)
    · simp
    · exact absurd hitem (h k)
    · simp [Shred.shredType]

/-- A set gets no coding shred when no answer for it has one. -/
theorem SlotState.codingAnswers_eq_zero_iff {σ : SlotState} {f : FecSetIndex} :
    σ.codingAnswers ledger order f = 0 ↔ ∀ items, σ.callsRecover order f = true →
      σ.recoverAnswer ledger order f = some items → ∀ k, some (.shredCode k) ∉ items := by
  unfold codingAnswers
  cases hcalls : σ.callsRecover order f with
  | false => simp
  | true =>
      cases hanswer : σ.recoverAnswer ledger order f with
      | none => simp
      | some items => simp [codingItems_eq_zero_iff]

/-- The count of a call, in terms of the state in which its recovery phase starts. -/
theorem count_of_call {state : ProxyState} (hgood : state.allShreds.Good) (c : Call) :
    ∃ r b after, reconstructShreds ledger c state = .ok r ∧ RecoveryPhase ledger c state b after ∧
      r.metrics.recoveredCount = r.recoveredCount ∧
      (r.recoveredCount : ℕ∞) = (becameKnown b.allShreds after).encard +
        (((sortDedup lexLe b.slotFecIndexesToIterate).map fun w =>
          (b.allShreds.view w.1).codingAnswers ledger c.order w.2).sum : ℕ) := by
  have hstart : state.toIngest.Refines state.view.toFeed := ⟨hgood, rfl, rfl, rfl⟩
  rcases @foldlM_ingestPacket_refines ledger _ _ hstart c.packets with ⟨b, hb, hR⟩
  have hflag : ∀ w ∈ sortDedup lexLe b.slotFecIndexesToIterate,
      (b.allShreds.view w.1).recovered w.2 = false := by
    intro w hw
    rw [mem_sortDedup, hR.work] at hw
    rw [hR.view]
    exact Feed.unflagged_of_mem_work (fun _ h => absurd h List.not_mem_nil) w hw
  have hlt : ∀ w ∈ sortDedup lexLe b.slotFecIndexesToIterate, w.2 < maxDataShredsPerSlot := by
    intro w hw
    rw [mem_sortDedup, hR.work] at hw
    rcases (Feed.exists_of_mem_work hw).resolve_left List.not_mem_nil with ⟨s, hs, rfl⟩
    exact (Call.admitted_of_mem hs).fecSetIndex_lt
  rcases @foldlM_recoverStep_refines ledger c.order _ _ hR.good hlt 0 with
    ⟨⟨after, n⟩, hrec, hgood', _⟩
  have hcount := (recoverStep_count hR.good hlt (nodup_sortDedup _) hflag hrec).2
  rw [Nat.cast_zero, zero_add, ← becameKnown_eq_gained hR.good hgood'] at hcount
  -- deshredding and pruning leave the count alone
  rcases @reconstructShredsNoRetain_refines ledger _ hgood c with ⟨r', hr', hgoodr, _⟩
  rcases prune_of_good hgoodr c.order r'.state.highestSlotSeen with ⟨missed, hmissed⟩
  have hresult : r'.recoveredCount = n ∧ r'.metrics.recoveredCount = n := by
    simp only [reconstructShredsNoRetain, hb, hrec, ok_bind] at hr'
    rcases bind_eq_ok_iff.mp hr' with ⟨d, _, heq⟩
    obtain rfl := Except.ok.inj heq
    exact ⟨rfl, rfl⟩
  refine ⟨{ r' with
    state := ⟨r'.state.allShreds.retained r'.state.highestSlotSeen, r'.state.highestSlotSeen⟩
    missedFecSets := missed }, b, after, ?_, ⟨hb, n, hrec⟩, ?_, ?_⟩
  · simp only [reconstructShreds, hr', ok_bind, hmissed, pure_eq_ok]
  · exact hresult.2.trans hresult.1.symm
  · exact (congrArg Nat.cast hresult.1).trans hcount

/-- The count is right if and only if the answers hold no coding shred. -/
theorem countsGained_iff {state : ProxyState} (hgood : state.allShreds.Good) {c : Call}
    {b : IngestState} (hb : c.packets.foldlM (ingestPacket ledger) state.toIngest = .ok b) :
    CountsGained ledger c state ↔ ((sortDedup lexLe b.slotFecIndexesToIterate).map fun w =>
      (b.allShreds.view w.1).codingAnswers ledger c.order w.2).sum = 0 := by
  rcases @count_of_call ledger _ hgood c with ⟨r, b', after, hr, ⟨hb', n, hrec⟩, hmetrics, hcount⟩
  obtain rfl := Except.ok.inj (hb.symm.trans hb')
  constructor
  · rintro ⟨r₁, b₁, after₁, hr₁, ⟨hb₁, n₁, hrec₁⟩, _, hsame⟩
    obtain rfl := Except.ok.inj (hr.symm.trans hr₁)
    obtain rfl := Except.ok.inj (hb.symm.trans hb₁)
    obtain rfl : after = after₁ := congrArg Prod.fst (Except.ok.inj (hrec.symm.trans hrec₁))
    rw [hsame] at hcount
    have hcancel := Nat.cast_injective (R := ℕ∞) (hcount.trans (Nat.cast_add _ _).symm)
    omega
  · intro hzero
    rw [hzero, Nat.cast_zero, add_zero] at hcount
    exact ⟨r, b, after, hr, ⟨hb, n, hrec⟩, hmetrics, hcount.symm⟩

/-- In every reachable state and for every batch, the returned count is the number of data positions
gained by recovery if and only if no recovery of the call answers with a coding shred. -/
theorem recovered_count_iff (ledger : Ledger) (calls : List Call) (h : History)
    (hh : runCalls ledger calls = .ok h) (c : Call) :
    CountsGained ledger c h.state ↔ NoCodingAnswer ledger c h.state := by
  have hgood := (sim_of_runCalls hh).good
  rcases @count_of_call ledger _ hgood c with ⟨_, b, _, _, ⟨hb, _⟩, _⟩
  rw [countsGained_iff hgood hb, List.sum_eq_zero_iff]
  constructor
  · intro hzero b' hb' w hw
    obtain rfl := Except.ok.inj (hb.symm.trans hb')
    exact SlotState.codingAnswers_eq_zero_iff.mp
      (hzero _ (List.mem_map.mpr ⟨w, mem_sortDedup.mpr hw, rfl⟩))
  · intro hno n hn
    rcases List.mem_map.mp hn with ⟨w, hw, rfl⟩
    exact SlotState.codingAnswers_eq_zero_iff.mpr (hno b hb w (mem_sortDedup.mp hw))

/-- A state in which the highest slot is the first one holds what the machine holds. -/
theorem Sim.view_eq {state : ProxyState} {m : Machine} (h : Sim state m) (hm : m.highest = 0) :
    state.view = m := by
  unfold ProxyState.view
  rw [h.highest]
  congr 1
  funext slot
  rcases h.slots slot with heq | ⟨hlt, _⟩
  · exact heq
  · rw [hm, Nat.zero_sub] at hlt
    exact absurd hlt (Nat.not_lt_zero slot)

/-- One data shred comes in a first call and the coding shred in a second one: recovery answers
with the other data shred alone, and the second call counts it. -/
theorem recovered_count_iff_sample :
    ∃ h, runCalls Ledger.sample [Sample.call [1]] = .ok h ∧
      NoCodingAnswer Ledger.sample (Sample.call [3]) h.state ∧
      CountsGained Ledger.sample (Sample.call [3]) h.state := by
  rcases runCalls_sim Ledger.sample [Sample.call [1]] with ⟨h, hh, hsim, _⟩
  have hiff := recovered_count_iff Ledger.sample [Sample.call [1]] h hh (Sample.call [3])
  have hstart : h.state.toIngest.Refines h.state.view.toFeed := ⟨hsim.good, rfl, rfl, rfl⟩
  rcases @foldlM_ingestPacket_refines Ledger.sample _ _ hstart (Sample.call [3]).packets with
    ⟨b, hb, hR⟩
  have hcounts : CountsGained Ledger.sample (Sample.call [3]) h.state := by
    rw [countsGained_iff hsim.good hb, hR.work, hR.view, hsim.view_eq (by decide +kernel)]
    decide +kernel
  exact ⟨h, hh, hiff.mp hcounts, hcounts⟩

/-- Recovery from one data shred and one coding shred brings the other data shred and the other
coding shred, and the call counts both. -/
theorem coding_shred_counted :
    ¬ CountsGained Ledger.wide (Sample.call [0, 2]) History.initial.state := by
  have hstart : History.initial.state.toIngest.Refines History.initial.state.view.toFeed :=
    ⟨SlotMap.good_empty, rfl, rfl, rfl⟩
  rcases @foldlM_ingestPacket_refines Ledger.wide _ _ hstart (Sample.call [0, 2]).packets with
    ⟨b, hb, hR⟩
  rw [countsGained_iff hstart.good hb, hR.work, hR.view,
    show History.initial.state.view = _ from ProxyState.view_initial]
  decide +kernel

end ShredstreamProxy
