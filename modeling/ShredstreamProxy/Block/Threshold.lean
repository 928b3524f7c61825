import ShredstreamProxy.Block.Completeness
import ShredstreamProxy.Deshred.ShredInfo
import ShredstreamProxy.Properties.Dropped
import ShredstreamProxy.Properties.Isolation

/-!
# Recovery at the threshold

An erasure set of `n` data shreds can be recovered from any `n` of its shreds.  The code gets
there when it keeps every shred that it is offered for a set that is not finished.  Data
shreds are kept; a coding shred is turned away when the flag of an already deshredded data
shred happens to stand at its coding index.  Where this does not happen, every set is known
as soon as `n` of its shreds were seen.

Main results:

- Theorem {lit}`Block.SetInput.needsRecovery_iff`: when the code calls recovery for a set.
- Theorem {lit}`Block.Keeping.offer`: an offered shred is held, or its set is finished.
- Theorem {lit}`Block.Keeping.recover_settles`: a recovery attempt completes a set that holds
  enough shreds.
- Theorem {lit}`recovered_at_threshold`: the statement about the code.
- Theorem {lit}`coding_shred_turned_away`: a run in which a coding shred is turned away.
-/

namespace ShredstreamProxy

open Exec KeyedFold

namespace Block

variable {B : Block} {ledger : Ledger}

/-- What is assumed of the coding shreds of a block and of their recovery. -/
structure Recoverable (ledger : Ledger) (B : Block) : Prop extends B.Honest ledger where
  /-- Coding shreds belong to sets of the block. -/
  codes_set : ∀ c, B.codes c → 0 < B.setSize c.commonHeader.fecSetIndex
  /-- They carry the number of data shreds of their set. -/
  codes_size : ∀ c, B.codes c →
    c.codingHeader.numDataShreds = B.setSize c.commonHeader.fecSetIndex
  /-- Copies of a coding shred compare equal. -/
  codes_unique : ∀ c c', B.codes c → B.codes c' → c.commonHeader.index = c'.commonHeader.index →
    comparableEq ledger (.shredCode c) (.shredCode c') = true
  /-- Recovery from enough distinct shreds of a set, one of them a coding shred, returns all
  missing data shreds. -/
  recover_all : ∀ f l, (∀ t ∈ l, B.Genuine ledger t ∧ t.fecSetIndex = f) →
    (∃ t ∈ l, t.shredType = .code) → B.setSize f ≤ (l.map Shred.position).toFinset.card →
    ∃ r, ledger.recover l = some r ∧ ∀ i ∈ B.members f,
      (∃ t ∈ l, t.shredType = .data ∧ t.index = i) ∨
        ∃ t, some t ∈ r ∧ t.shredType = .data ∧ t.index = i

/-! ## The shreds of one set -/

/-- Genuine shreds of one set, at different positions. -/
structure SetInput (ledger : Ledger) (B : Block) (f : FecSetIndex) (l : List Shred) : Prop where
  genuine : ∀ t ∈ l, B.Genuine ledger t
  fecSetIndex : ∀ t ∈ l, t.fecSetIndex = f
  nodup : (l.map Shred.position).Nodup

namespace SetInput

variable {f : FecSetIndex} {l : List Shred}

/-- The order of the shreds does not matter. -/
theorem perm (h : B.SetInput ledger f l) {l' : List Shred} (hl : l'.Perm l) :
    B.SetInput ledger f l' where
  genuine := fun t ht => h.genuine t (hl.mem_iff.mp ht)
  fecSetIndex := fun t ht => h.fecSetIndex t (hl.mem_iff.mp ht)
  nodup := (hl.map Shred.position).nodup_iff.mpr h.nodup

/-- The data indexes among the shreds. -/
def dataIndexes (l : List Shred) : List Nat :=
  (l.filter fun s => s.shredType = .data).map Shred.index

theorem mem_dataIndexes {i : Nat} :
    i ∈ dataIndexes l ↔ ∃ t ∈ l, t.shredType = .data ∧ t.index = i := by
  simp [dataIndexes, and_assoc]

theorem length_dataIndexes (l : List Shred) :
    (dataIndexes l).length = l.countP fun s => s.shredType = .data := by
  rw [dataIndexes, List.length_map, List.countP_eq_length_filter]

theorem nodup_dataIndexes (h : B.SetInput ledger f l) : (dataIndexes l).Nodup := by
  refine List.Nodup.map_on ?_ (h.nodup.of_map.filter _)
  intro s hs t ht hst
  rw [List.mem_filter, decide_eq_true_eq] at hs ht
  exact List.inj_on_of_nodup_map h.nodup hs.1 ht.1 (Prod.ext (hs.2.trans ht.2.symm) hst)

/-- The data indexes belong to the set. -/
theorem dataIndexes_subset (h : B.SetInput ledger f l) : dataIndexes l ⊆ B.members f := by
  intro i hi
  rcases mem_dataIndexes.mp hi with ⟨t, ht, htype, hindex⟩
  have hdata : B.DataAt ledger i t := ⟨h.genuine t ht, htype, hindex⟩
  exact Layout.mem_members.mpr ⟨hdata.lt, hdata.fecSetIndex.symm.trans (h.fecSetIndex t ht)⟩

/-- There are at most as many data shreds as the set has. -/
theorem countP_le (h : B.SetInput ledger f l) :
    (l.countP fun s => s.shredType = .data) ≤ B.setSize f := by
  rw [← length_dataIndexes]
  exact (h.nodup_dataIndexes.subperm h.dataIndexes_subset).length_le

/-- With as many data shreds as the set has, all of them are there. -/
theorem exists_of_countP_eq (h : B.SetInput ledger f l)
    (hcount : B.setSize f ≤ l.countP fun s => s.shredType = .data) :
    ∀ i ∈ B.members f, ∃ t ∈ l, t.shredType = .data ∧ t.index = i := by
  intro i hi
  have hperm := (h.nodup_dataIndexes.subperm h.dataIndexes_subset).perm_of_length_le
    (by rw [length_dataIndexes]; exact hcount)
  exact mem_dataIndexes.mp (hperm.mem_iff.mpr hi)

theorem countP_eq_length (hcode : ¬ ∃ t ∈ l, t.shredType = .code) :
    (l.countP fun s => s.shredType = .data) = l.length := by
  rw [List.countP_eq_length]
  intro t ht
  cases t with
  | shredCode c => exact absurd ⟨_, ht, rfl⟩ hcode
  | shredData d => rfl

/-- Every coding shred names the number of data shreds of the set. -/
theorem names (hB : B.Recoverable ledger) (h : B.SetInput ledger f l) :
    ∀ t ∈ l, t.Names (B.setSize f) := by
  intro t ht
  have hset := h.fecSetIndex t ht
  cases t with
  | shredCode c =>
      have hc := hB.codes_size c (h.genuine _ ht).2
      exact hc.trans (congrArg B.setSize hset)
  | shredData d =>
      intro hcomplete
      have hdata : B.DataAt ledger d.commonHeader.index (.shredData d) := ⟨h.genuine _ ht, rfl, rfl⟩
      have hlast := B.completes_last _ hdata.lt (hdata.completes ▸ hcomplete)
      have hsize := Layout.setSize_of_isLast hlast hdata.lt
      have hfec : d.commonHeader.fecSetIndex = B.fecOf d.commonHeader.index := hdata.fecSetIndex
      have hle := B.fecOf_le d.commonHeader.index
      have hlt := hdata.lt.trans_le B.numData_le
      have hsame : B.setSize f = d.commonHeader.index + 1 - d.commonHeader.fecSetIndex := by
        rw [← hset, hfec, ← hsize]
        exact congrArg B.setSize hfec
      rw [← hfec] at hle
      rw [hsame]
      unfold maxDataShredsPerSlot at hlt
      dsimp only [FecSetIndex] at *
      omega

/-- Recovery is called for exactly those sets that hold enough shreds, one of them a coding
shred, and lack a data shred. -/
theorem needsRecovery_iff (hB : B.Recoverable ledger) (h : B.SetInput ledger f l) :
    needsRecovery (getDataShredInfo l) l.length = true ↔
      0 < B.setSize f ∧ (∃ t ∈ l, t.shredType = .code) ∧ B.setSize f ≤ l.length ∧
        (l.countP fun s => s.shredType = .data) < B.setSize f := by
  have hexpected := expected_of_names (h.names hB)
  have hcount := h.countP_le
  have hsize := B.toLayout.setSize_le f
  have hdata : (getDataShredInfo l).numDataShreds = l.countP fun s => s.shredType = .data := by
    rw [numDataShreds_eq, Nat.mod_eq_of_lt]
    unfold maxDataShredsPerSlot at hsize
    omega
  simp only [needsRecovery, hdata, Bool.not_eq_true', Bool.or_eq_false_iff, decide_eq_false_iff_not]
  constructor
  · rintro ⟨⟨hzero, hlen⟩, hne⟩
    have hsame := hexpected.1.resolve_left hzero
    rw [hsame] at hzero hlen hne
    refine ⟨by omega, ?_, by omega, by omega⟩
    by_contra hcode
    rw [countP_eq_length hcode] at hcount hne
    omega
  · rintro ⟨hpos, hcode, hlen, hlt⟩
    rw [hexpected.2 hcode]
    exact ⟨⟨by omega, by omega⟩, by omega⟩

end SetInput

/-! ## Nothing that was seen is lost -/

/-- The positions held for a set. -/
def heldPositions (σ : SlotState) (f : FecSetIndex) : List (ShredType × Nat) :=
  (σ.held f).map Shred.position

/-- The slot holds every stored data shred and every shred seen so far of sets that are not
finished, and finished sets are complete. -/
structure Keeping (ledger : Ledger) (B : Block) (seen : List Shred) (σ : SlotState)
    (out : List Deshredded) : Prop where
  slotInv : B.SlotInv ledger σ out
  complete : σ.FlaggedComplete fun f i => i ∈ B.members f
  nodup : ∀ f, (heldPositions σ f).Nodup
  stored : ∀ i s, σ.dataShreds i = some s → σ.recovered s.fecSetIndex = false →
    s.position ∈ heldPositions σ s.fecSetIndex
  seen : ∀ s ∈ seen, σ.recovered s.fecSetIndex = false →
    s.position ∈ heldPositions σ s.fecSetIndex

variable {seen : List Shred} {σ : SlotState} {out : List Deshredded}

theorem keeping_initial (ledger : Ledger) (B : Block) :
    B.Keeping ledger [] SlotState.initial [] where
  slotInv := slotInv_initial ledger B
  complete := SlotState.FlaggedComplete.initial _
  nodup := fun _ => List.nodup_nil
  stored := fun _ _ h => absurd h (by simp [SlotState.initial])
  seen := fun _ h => absurd h List.not_mem_nil

/-- What is held for a set are genuine shreds of it. -/
theorem Keeping.setInput (h : B.Keeping ledger seen σ out) (f : FecSetIndex) :
    B.SetInput ledger f (σ.held f) where
  genuine := fun t ht => h.slotInv.within.held f t ht
  fecSetIndex := fun t ht => (h.slotInv.inv.held f t ht).1
  nodup := h.nodup f

/-- Taking a shred adds its position to its set. -/
theorem heldPositions_ingest {s : Shred} {σ' : SlotState} (hin : σ.ingest ledger s = some σ')
    {f : FecSetIndex} {p : ShredType × Nat} :
    p ∈ heldPositions σ' f ↔ p ∈ heldPositions σ f ∨ f = s.fecSetIndex ∧ p = s.position := by
  unfold heldPositions
  rw [SlotState.held_ingest hin]
  split
  · rename_i hf
    rw [position_mem_insertComparable]
    simp [hf]
  · rename_i hf
    simp [hf]

/-- Accepting a genuine shred keeps positions held once. -/
theorem Keeping.nodup_ingest (hB : B.Recoverable ledger) (h : B.Keeping ledger seen σ out)
    {s : Shred} (hgenuine : B.Genuine ledger s) {σ' : SlotState}
    (hin : σ.ingest ledger s = some σ') : σ'.HoldsOnce := by
  refine SlotState.HoldsOnce.ingest h.nodup h.slotInv.inv ?_ hin
  intro htype t ht hpos
  cases s with
  | shredData d => contradiction
  | shredCode c =>
      cases t with
      | shredData d => cases congrArg Prod.fst hpos
      | shredCode c' =>
          have hindex : c'.commonHeader.index = c.commonHeader.index := congrArg Prod.snd hpos
          exact hB.codes_unique c c' hgenuine.2 (h.slotInv.within.held _ _ ht).2 hindex.symm

/-- A shred that is turned away from an unfinished set is held, provided that the deshredded
data shred of the same index, if there is one, does not concern it. -/
theorem Keeping.held_of_dropped (h : B.Keeping ledger seen σ out) {s : Shred}
    (hgenuine : B.Genuine ledger s)
    (hcode : s.shredType = .code →
      σ.recovered s.fecSetIndex = true ∨ σ.deshredded s.index = false)
    (hin : σ.ingest ledger s = none) (hunfinished : σ.recovered s.fecSetIndex = false) :
    s.position ∈ heldPositions σ s.fecSetIndex := by
  have hnot := SlotState.ingest_eq_none_iff.mp hin
  cases s with
  | shredCode c =>
      have hfree : σ.deshredded (Shred.shredCode c).index = false :=
        (hcode rfl).resolve_left (by simp [hunfinished])
      exact absurd ⟨hunfinished, hfree, fun htype => nomatch htype⟩ hnot
  | shredData d =>
      -- a deshredded position is known, so the shred was turned away because it is
      have hknown : ∃ t, σ.dataShreds d.commonHeader.index = some t := by
        by_contra hnone
        refine hnot ⟨hunfinished, ?_, ?_⟩
        · rw [← Bool.not_eq_true]
          intro hdes
          rcases h.slotInv.inv.deshredded _ hdes with ⟨t, ht, _⟩
          exact hnone ⟨t, ht⟩
        · intro _
          rw [Option.eq_none_iff_forall_ne_some]
          exact fun t ht => hnone ⟨t, ht⟩
      rcases hknown with ⟨t, ht⟩
      have hdata := h.slotInv.dataAt ht
      have hset : t.fecSetIndex = d.commonHeader.fecSetIndex :=
        hdata.fecSetIndex.trans hgenuine.2.2.1.symm
      have hpos : t.position = (Shred.shredData d).position := Prod.ext hdata.shredType hdata.index
      have hheld := h.stored _ t ht (by rw [hset]; exact hunfinished)
      rwa [hset, hpos] at hheld

/-- An offered shred is held afterwards, or its set is finished, provided that a coding shred
is not turned away for a deshredded data shred of the same index. -/
theorem Keeping.offer (hB : B.Recoverable ledger) (h : B.Keeping ledger seen σ out)
    {s : Shred} (hgenuine : B.Genuine ledger s) (hadm : s.Admitted) (hslot : s.slot = B.slot)
    (hcode : s.shredType = .code →
      σ.recovered s.fecSetIndex = true ∨ σ.deshredded s.index = false)
    (work : List FecSetIndex) :
    B.Keeping ledger (seen ++ [s]) (SlotState.offer ledger (σ, work) s).1 out := by
  cases hin : σ.ingest ledger s with
  | some σ' =>
      have hsame : (SlotState.offer ledger (σ, work) s).1 = σ' := by simp [SlotState.offer, hin]
      rw [hsame]
      have hrec : σ'.recovered = σ.recovered := by
        rw [(SlotState.ingest_eq_some_iff.mp hin).2.2.2]
      refine ⟨h.slotInv.ingest hgenuine hadm hslot hin, h.complete.ingest hin,
        h.nodup_ingest hB hgenuine hin, ?_, ?_⟩
      · intro i t ht hunfinished
        rw [hrec] at hunfinished
        rw [heldPositions_ingest hin]
        rcases SlotState.stored_of_ingest hin ht with ht | ⟨rfl, _, _⟩
        · exact Or.inl (h.stored i t ht hunfinished)
        · exact Or.inr ⟨rfl, rfl⟩
      · intro t ht hunfinished
        rw [hrec] at hunfinished
        rw [heldPositions_ingest hin]
        rcases List.mem_append.mp ht with ht | ht
        · exact Or.inl (h.seen t ht hunfinished)
        · obtain rfl := List.mem_singleton.mp ht
          exact Or.inr ⟨rfl, rfl⟩
  | none =>
      have hsame : (SlotState.offer ledger (σ, work) s).1 = σ := by simp [SlotState.offer, hin]
      rw [hsame]
      refine ⟨h.slotInv, h.complete, h.nodup, h.stored, ?_⟩
      intro t ht hunfinished
      rcases List.mem_append.mp ht with ht | ht
      · exact h.seen t ht hunfinished
      · obtain rfl := List.mem_singleton.mp ht
        exact h.held_of_dropped hgenuine hcode hin hunfinished

/-! ## Attempts -/

/-- An attempt that calls recovery gets all missing data shreds of the set. -/
theorem Keeping.answer_complete (hB : B.Recoverable ledger) (h : B.Keeping ledger seen σ out)
    (order : IterOrder) {f : FecSetIndex} (hcalls : σ.callsRecover order f = true) :
    ∃ items, σ.recoverAnswer ledger order f = some items ∧ ∀ i ∈ B.members f,
      (∃ t, σ.dataShreds i = some t) ∨ ∃ t, some t ∈ items ∧ t.shredType = .data ∧ t.index = i := by
  have hperm := order.perm (σ.held f)
  have hsort : (sortForRecovery (order.iter (σ.held f))).Perm (σ.held f) :=
    (List.perm_insertionSort _ _).trans hperm
  have hinput := (h.setInput f).perm hperm
  have hsorted := (h.setInput f).perm hsort
  unfold SlotState.callsRecover at hcalls
  rw [← hperm.length_eq, hinput.needsRecovery_iff hB] at hcalls
  rcases hcalls with ⟨_, ⟨t, ht, htype⟩, hlen, _⟩
  have hcard : B.setSize f ≤
      ((sortForRecovery (order.iter (σ.held f))).map Shred.position).toFinset.card := by
    rw [List.toFinset_card_of_nodup hsorted.nodup, List.length_map, hsort.length_eq,
      ← hperm.length_eq]
    exact hlen
  have hcode : ∃ t ∈ sortForRecovery (order.iter (σ.held f)), t.shredType = .code :=
    ⟨t, SlotState.mem_sortForRecovery.mpr (hperm.mem_iff.mp ht), htype⟩
  rcases hB.recover_all f _ (fun t ht => ⟨hsorted.genuine t ht, hsorted.fecSetIndex t ht⟩) hcode
    hcard with ⟨items, hanswer, hall⟩
  refine ⟨items, hanswer, ?_⟩
  intro i hi
  rcases hall i hi with ⟨t, ht, htype, hindex⟩ | hnew
  · have hheld := h.slotInv.inv.held f t (SlotState.mem_sortForRecovery.mp ht)
    exact Or.inl ⟨t, hindex ▸ hheld.2.2 htype⟩
  · exact Or.inr hnew

/-- A recovery attempt loses nothing that is still needed. -/
theorem Keeping.recover (hB : B.Recoverable ledger) (h : B.Keeping ledger seen σ out)
    (order : IterOrder) {f : FecSetIndex} (hf : f < maxDataShredsPerSlot) :
    B.Keeping ledger seen (σ.recover ledger order f).1 out := by
  have hspec := SlotState.recover_spec ledger order σ f
  -- a set that is still unfinished holds what it held
  have hsame : ∀ g, (σ.recover ledger order f).1.recovered g = false →
      σ.recovered g = false ∧ heldPositions (σ.recover ledger order f).1 g = heldPositions σ g := by
    intro g hg
    rw [hspec.recovered_eq] at hg
    unfold heldPositions
    rw [SlotState.held_recover]
    by_cases hpos : 0 < (σ.recover ledger order f).2
    · rw [if_pos hpos] at hg
      have hne : g ≠ f := by
        rintro rfl
        rw [Function.update_self] at hg
        contradiction
      rw [Function.update_of_ne hne] at hg
      exact ⟨hg, by rw [if_neg fun hh => hne hh.1]⟩
    · rw [if_neg hpos] at hg
      exact ⟨hg, by rw [if_neg fun hh => hpos hh.2]⟩
  refine ⟨h.slotInv.recover hB.toHonest order hf, h.complete.recover h.slotInv.inv order ?_,
    SlotState.HoldsOnce.recover h.nodup order f, ?_, ?_⟩
  · intro items s hcalls hanswer _ _ i hi
    rcases h.answer_complete hB order hcalls with ⟨items', hanswer', hall⟩
    obtain rfl := Option.some.inj (hanswer'.symm.trans hanswer)
    exact hall i hi
  · intro i s hs hunfinished
    rcases hsame _ hunfinished with ⟨hold, hheld⟩
    rw [hheld]
    rcases hspec.source i s hs with hs | ⟨items, hcalls, hanswer, hmem, _, _, hpos⟩
    · exact h.stored i s hs hold
    · -- a shred that recovery brought belongs to the set it finished
      have hset := (h.slotInv.inv.answer_admitted hcalls hanswer hmem).2.2
      rw [hset, hspec.recovered_eq, if_pos hpos, Function.update_self] at hunfinished
      contradiction
  · intro s hs hunfinished
    rcases hsame _ hunfinished with ⟨hold, hheld⟩
    rw [hheld]
    exact h.seen s hs hold

/-- A deshred attempt loses nothing that is still needed. -/
theorem Keeping.deshred (hB : B.Recoverable ledger) (h : B.Keeping ledger seen σ out)
    (f : FecSetIndex) :
    B.Keeping ledger seen (σ.deshred ledger B.slot f).1
      (out ++ (σ.deshred ledger B.slot f).2.toList) := by
  have hheld : ∀ g, heldPositions (σ.deshred ledger B.slot f).1 g = heldPositions σ g := by
    intro g
    unfold heldPositions
    rw [SlotState.held_deshred]
  have hold : ∀ g, (σ.deshred ledger B.slot f).1.recovered g = false → σ.recovered g = false := by
    intro g hg
    rw [← Bool.not_eq_true] at hg ⊢
    exact fun hrec => hg ((SlotState.deshred_le f).recovered g hrec)
  refine ⟨h.slotInv.deshred hB.toHonest f, h.complete.deshred f ?_,
    SlotState.HoldsOnce.deshred h.nodup f, ?_, ?_⟩
  · -- an emitted segment consists of whole sets
    rintro a e u ⟨payload, entries⟩ hfound hdecode s hs i hi
    have hfound' := (Segment.segmentAt_eq_some_iff _ _ _ _ _).mp hfound
    have hseg := (isSegment_of_decode hB.toHonest h.slotInv hfound' hdecode).1
    rcases SlotState.mem_shredsIn.mp hs with ⟨j, h₁, h₂, hj⟩
    rw [(h.slotInv.dataAt hj).fecSetIndex, Layout.mem_members] at hi
    have hle := hseg.fecOf_mem h₁ h₂
    rw [← hi.2] at hle
    exact SlotState.exists_of_isSegment hfound' (hle.1.trans (B.fecOf_le i))
      (Layout.le_of_isLast hseg.isLast h₂ hi.1 hi.2)
  · intro i s hs hunfinished
    rw [SlotState.deshred_dataShreds] at hs
    rw [hheld]
    exact h.stored i s hs (hold _ hunfinished)
  · intro s hs hunfinished
    rw [hheld]
    exact h.seen s hs (hold _ hunfinished)

/-! ## Sets that hold enough -/

/-- A set that holds enough shreds is known as a whole. -/
def Settled (B : Block) (σ : SlotState) (f : FecSetIndex) : Prop :=
  B.setSize f ≤ (σ.held f).length → ∀ i ∈ B.members f, ∃ s, σ.dataShreds i = some s

/-- A settled set stays so while it holds the same and the slot only gains shreds. -/
theorem Settled.mono {f : FecSetIndex} (h : B.Settled σ f) {τ : SlotState}
    (hheld : τ.held f = σ.held f)
    (hmono : ∀ i s, σ.dataShreds i = some s → τ.dataShreds i = some s) : B.Settled τ f := by
  intro hlen i hi
  rw [hheld] at hlen
  rcases h hlen i hi with ⟨s, hs⟩
  exact ⟨s, hmono i s hs⟩

/-- A recovery attempt settles its set. -/
theorem Keeping.recover_settles (hB : B.Recoverable ledger) (h : B.Keeping ledger seen σ out)
    (order : IterOrder) (f : FecSetIndex) : B.Settled (σ.recover ledger order f).1 f := by
  have hspec := SlotState.recover_spec ledger order σ f
  intro hlen i hi
  have hpos : 0 < B.setSize f := List.length_pos_of_mem hi
  by_cases hrec : σ.recovered f = true
  · rcases h.complete f hrec i hi with ⟨s, hs⟩
    exact ⟨s, hspec.mono i s hs⟩
  · rw [SlotState.held_recover] at hlen
    split at hlen
    · exact absurd hlen (by simp; omega)
    · by_cases hall : B.setSize f ≤ (σ.held f).countP fun s => s.shredType = .data
      · rcases (h.setInput f).exists_of_countP_eq hall i hi with ⟨t, ht, htype, hindex⟩
        have hheld := (h.slotInv.inv.held f t ht).2.2 htype
        exact ⟨t, hspec.mono i t (hindex ▸ hheld)⟩
      · -- some data shred is not held, so there is a coding shred and recovery is called
        have hperm := order.perm (σ.held f)
        have hcalls : σ.callsRecover order f = true := by
          unfold SlotState.callsRecover
          rw [← hperm.length_eq, ((h.setInput f).perm hperm).needsRecovery_iff hB, hperm.length_eq,
            hperm.countP_eq]
          refine ⟨hpos, ?_, hlen, by omega⟩
          by_contra hcode
          have hnone : ¬ ∃ t ∈ σ.held f, t.shredType = .code := by
            rintro ⟨t, ht, htype⟩
            exact hcode ⟨t, hperm.mem_iff.mpr ht, htype⟩
          rw [SetInput.countP_eq_length hnone] at hall
          exact hall hlen
        rcases h.answer_complete hB order hcalls with ⟨items, hanswer, hcomplete⟩
        rcases hcomplete i hi with ⟨t, ht⟩ | ⟨t, ht, htype, hindex⟩
        · exact ⟨t, hspec.mono i t ht⟩
        · have hset := (h.slotInv.inv.answer_admitted hcalls hanswer ht).2.2
          have hknown := hspec.covers items hcalls hanswer t ht htype
            (by rw [hset]; simpa using hrec)
          rw [hindex] at hknown
          exact Option.isSome_iff_exists.mp hknown

/-- A recovery attempt on another set leaves a set settled. -/
theorem Settled.recover {f g : FecSetIndex} (h : B.Settled σ f) (hne : f ≠ g)
    (order : IterOrder) : B.Settled (σ.recover ledger order g).1 f := by
  refine h.mono ?_ (SlotState.recover_spec ledger order σ g).mono
  rw [SlotState.held_recover, if_neg fun hh => hne hh.1]

/-- A deshred attempt leaves a set settled. -/
theorem Settled.deshred {f : FecSetIndex} (h : B.Settled σ f) (slot : Slot) (g : FecSetIndex) :
    B.Settled (σ.deshred ledger slot g).1 f := by
  refine h.mono (SlotState.held_deshred ledger slot σ g f) ?_
  intro i s hs
  rw [SlotState.deshred_dataShreds]
  exact hs

/-- The recovery loop settles the sets it goes through and leaves the others settled. -/
theorem Keeping.run_recover (hB : B.Recoverable ledger) (order : IterOrder)
    {l : List FecSetIndex} (hl : ∀ f ∈ l, f < maxDataShredsPerSlot)
    (h : B.Keeping ledger seen σ out) (hsettled : ∀ f, f ∈ l ∨ B.Settled σ f) :
    B.Keeping ledger seen (run (SlotState.recover ledger order) σ l).1 out ∧
      ∀ f, B.Settled (run (SlotState.recover ledger order) σ l).1 f := by
  induction l generalizing σ with
  | nil => exact ⟨h, fun f => (hsettled f).resolve_left List.not_mem_nil⟩
  | cons g l ih =>
      refine ih (fun f hf => hl f (List.mem_cons_of_mem g hf))
        (h.recover hB order (hl g List.mem_cons_self)) ?_
      intro f
      by_cases hf : f = g
      · subst hf
        exact Or.inr (h.recover_settles hB order f)
      · rcases hsettled f with hmem | hset
        · exact Or.inl ((List.mem_cons.mp hmem).resolve_left hf)
        · exact Or.inr (hset.recover hf order)

/-- The ingest loop keeps every shred it is offered, and what it does not touch stays
settled. -/
theorem Keeping.feed (hB : B.Recoverable ledger) (h : B.Keeping ledger seen σ out)
    (hsettled : ∀ f, B.Settled σ f) {shreds : List Shred} (hshreds : B.Offer ledger shreds)
    (hcode : ∀ s ∈ shreds, s.shredType = .code →
      σ.recovered s.fecSetIndex = true ∨ σ.deshredded s.index = false) :
    B.Keeping ledger (seen ++ shreds) (σ.feed ledger shreds).1 out ∧
      ∀ f, f ∈ (σ.feed ledger shreds).2 ∨ B.Settled (σ.feed ledger shreds).1 f := by
  have hloop : ∀ (l seen : List Shred) (acc : SlotState × List FecSetIndex),
      (∀ s ∈ l, s ∈ shreds) → B.Keeping ledger seen acc.1 out →
      acc.1.recovered = σ.recovered → acc.1.deshredded = σ.deshredded →
      (∀ f, f ∈ acc.2 ∨ B.Settled acc.1 f) →
      B.Keeping ledger (seen ++ l) (l.foldl (SlotState.offer ledger) acc).1 out ∧
        ∀ f, f ∈ (l.foldl (SlotState.offer ledger) acc).2 ∨
          B.Settled (l.foldl (SlotState.offer ledger) acc).1 f := by
    intro l
    induction l with
    | nil => exact fun seen acc _ hkeep _ _ hset => ⟨by simpa using hkeep, hset⟩
    | cons s l ih =>
        rintro seen ⟨τ, work⟩ hmem hkeep hrec hdes hset
        have hs := hshreds s (hmem s List.mem_cons_self)
        have hnext := hkeep.offer hB hs.1 hs.2.1 hs.2.2
          (by rw [hrec, hdes]; exact hcode s (hmem s List.mem_cons_self)) work
        have hrest := ih (seen ++ [s]) (SlotState.offer ledger (τ, work) s)
          (fun t ht => hmem t (List.mem_cons_of_mem s ht)) hnext
        rw [List.append_assoc, List.singleton_append] at hrest
        rw [List.foldl_cons]
        cases hin : τ.ingest ledger s with
        | none =>
            have hsame : SlotState.offer ledger (τ, work) s = (τ, work) := by
              simp [SlotState.offer, hin]
            rw [hsame] at hrest ⊢
            exact hrest hrec hdes hset
        | some τ' =>
            have hstep : SlotState.offer ledger (τ, work) s = (τ', work ++ [s.fecSetIndex]) := by
              simp [SlotState.offer, hin]
            have hfields := (SlotState.ingest_eq_some_iff.mp hin).2.2.2
            rw [hstep] at hrest ⊢
            refine hrest (by rw [hfields]; exact hrec) (by rw [hfields]; exact hdes) ?_
            intro f
            by_cases hf : f = s.fecSetIndex
            · exact Or.inl (by simp [hf])
            · refine (hset f).imp (List.mem_append_left _) fun hset => hset.mono ?_ ?_
              · rw [SlotState.held_ingest hin, if_neg hf]
              · exact fun i t ht => SlotState.stored_mono_ingest hin ht
  exact hloop shreds seen (σ, []) (fun _ hs => hs) h rfl rfl fun f => Or.inr (hsettled f)

/-- A call keeps every shred it is offered and settles every set. -/
theorem Keeping.process (hB : B.Recoverable ledger) (h : B.Keeping ledger seen σ out)
    (hsettled : ∀ f, B.Settled σ f) {shreds : List Shred} (hshreds : B.Offer ledger shreds)
    (hcode : ∀ s ∈ shreds, s.shredType = .code →
      σ.recovered s.fecSetIndex = true ∨ σ.deshredded s.index = false) (order : IterOrder) :
    B.Keeping ledger (seen ++ shreds) (σ.process ledger order B.slot shreds).1
        (out ++ (σ.process ledger order B.slot shreds).2) ∧
      ∀ f, B.Settled (σ.process ledger order B.slot shreds).1 f := by
  have hfeed := h.feed hB hsettled hshreds hcode
  have hrec := hfeed.1.run_recover hB order (touched_lt hshreds)
    fun f => (hfeed.2 f).imp_left mem_sortDedup.mpr
  refine SlotState.run_deshred_invariant
    (P := fun σ out => B.Keeping ledger (seen ++ shreds) σ out ∧ ∀ f, B.Settled σ f) out hrec ?_
  exact fun σ out f _ hσ => ⟨hσ.1.deshred hB f, fun g => (hσ.2 g).deshred B.slot f⟩

end Block

/-! ## The code -/

/-- At the turn of every coding packet of the slot its set is finished, or the data shred with
the same index was not deshredded. -/
def CodesUndisturbed (ledger : Ledger) (calls : List Call) (slot : Slot) : Prop :=
  ∀ b p c, Turn ledger calls b p → packetShred ledger p = some (.shredCode c) →
    c.commonHeader.slot = slot →
    (b.allShreds.entry slot).stateTracker.alreadyRecoveredFecSets[c.commonHeader.fecSetIndex]? =
        some true ∨
      (b.allShreds.entry slot).stateTracker.alreadyDeshredded[c.commonHeader.index]? = some false

theorem CodesUndisturbed.of_append {ledger : Ledger} {slot : Slot} {before after : List Call}
    (h : CodesUndisturbed ledger (before ++ after) slot) : CodesUndisturbed ledger before slot :=
  fun b p c hturn => h b p c hturn.of_prefix

/-- Seen by the machine, the flags that matter for the coding shreds of a call are those from
before the call. -/
theorem CodesUndisturbed.of_call {ledger : Ledger} {slot : Slot} {before after : List Call}
    {c : Call} (h : CodesUndisturbed ledger (before ++ c :: after) slot)
    (hfresh : NeverStale ledger (before ++ c :: after) slot) {s : Shred}
    (hs : s ∈ c.shreds ledger) (hslot : s.slot = slot) (htype : s.shredType = .code) :
    ((Machine.runs ledger before).machine.slots slot).recovered s.fecSetIndex = true ∨
      ((Machine.runs ledger before).machine.slots slot).deshredded s.index = false := by
  rcases List.mem_filterMap.mp hs with ⟨p, hp, hparse⟩
  rcases List.append_of_mem hp with ⟨earlier, later, hpackets⟩
  rcases runCalls_sim ledger before with ⟨hist, hhist, hsim, _⟩
  have hstart : hist.state.toIngest.Refines hist.state.view.toFeed := ⟨hsim.good, rfl, rfl, rfl⟩
  rcases @foldlM_ingestPacket_refines ledger _ _ hstart earlier with ⟨b, hb, _⟩
  have hturn : Turn ledger (before ++ c :: after) b p :=
    ⟨before, c, after, hist, earlier, later, rfl, hhist, hpackets, hb⟩
  have hview := (view_of_ingested hsim hb (hfresh b p s hturn hparse hslot)).2
  have hflags := @SlotState.feed_flags ledger
    ((Machine.runs ledger before).machine.slots slot)
    ((Machine.runs ledger before).machine.offered ledger (earlier.filterMap (packetShred ledger))
      slot)
  rw [← hview] at hflags
  cases s with
  | shredData d => contradiction
  | shredCode code =>
      rw [← hflags.1, ← hflags.2]
      rcases h b p code hturn hparse hslot with hrec | hdes
      · exact Or.inl (getElem?_getD_eq_true.mpr hrec)
      · refine Or.inr ?_
        rw [← Bool.not_eq_true]
        intro hflag
        exact absurd (hdes.symm.trans (getElem?_getD_eq_true.mp hflag)) (by simp)

namespace Block

variable {B : Block} {ledger : Ledger}

/-- The shreds of the block's slot that a run has seen. -/
def seenBy (ledger : Ledger) (B : Block) (calls : List Call) : List Shred :=
  calls.flatMap fun c => (c.shreds ledger).filter fun s => s.slot = B.slot

/-- Along a run, the slot of the block keeps what it has seen, and all sets are settled. -/
theorem keeping_runs (hB : B.Recoverable ledger) {calls : List Call} (hfed : B.Fed ledger calls)
    (hfresh : NeverStale ledger calls B.slot) (hcodes : CodesUndisturbed ledger calls B.slot) :
    B.Keeping ledger (B.seenBy ledger calls) ((Machine.runs ledger calls).machine.slots B.slot)
        ((Machine.runs ledger calls).emittedFor B.slot) ∧
      ∀ f, B.Settled ((Machine.runs ledger calls).machine.slots B.slot) f := by
  induction calls using List.reverseRecOn with
  | nil =>
      refine ⟨keeping_initial ledger B, ?_⟩
      intro f hlen i hi
      have hpos : 0 < B.setSize f := List.length_pos_of_mem hi
      exact absurd hlen (Nat.not_le_of_lt hpos)
  | append_singleton calls c ih =>
      have hprev : B.Fed ledger calls := fun c' hc' => hfed c' (List.mem_append_left _ hc')
      have hkeep := ih hprev hfresh.of_append hcodes.of_append
      have hstep := @Machine.runs_concat_slot ledger calls c B.slot
      rw [Prod.mk.injEq, offered_of_neverStale hfresh] at hstep
      rw [hstep.1, hstep.2, seenBy, List.flatMap_append, List.flatMap_singleton]
      refine hkeep.1.process hB hkeep.2 ?_ ?_ c.order
      · intro s hs
        rw [List.mem_filter, decide_eq_true_eq] at hs
        exact ⟨hfed c (by simp) s hs.1 hs.2, Call.admitted_of_mem hs.1, hs.2⟩
      · intro s hs htype
        rw [List.mem_filter, decide_eq_true_eq] at hs
        exact hcodes.of_call hfresh hs.1 hs.2 htype

/-- As soon as a run has seen as many distinct shreds of a set as the set has data shreds, and
until the slot is pruned, all data positions of the set are known. -/
def RecoversAtThreshold (ledger : Ledger) (B : Block) (calls : List Call) : Prop :=
  ∀ (f : FecSetIndex) (positions : Finset (ShredType × Nat)), 0 < B.setSize f →
    B.setSize f ≤ positions.card →
    (∀ p ∈ positions, ∃ c ∈ calls, ∃ s ∈ c.shreds ledger,
      s.slot = B.slot ∧ s.fecSetIndex = f ∧ s.position = p) →
    ∃ h, runCalls ledger calls = .ok h ∧
      (NeverRemoved ledger calls B.slot → B.slot ∈ h.state.allShreds) ∧
      ∀ entry : SlotEntry, h.state.allShreds[B.slot]? = some entry →
        ∀ i ∈ B.members f, ∃ s, entry.stateTracker.dataShreds[i]? = some (some s)

/-- The block in slot 0 of the small ledger can be recovered. -/
theorem recoverable_sample : sample.Recoverable Ledger.sample where
  toHonest := honest_sample
  codes_set := by
    rintro c rfl
    decide
  codes_size := by
    rintro c rfl
    decide
  codes_unique := by
    rintro c c' rfl rfl _
    decide +kernel
  recover_all := by
    intro f l hl hcode hcard
    rcases hcode with ⟨t, ht, htype⟩
    have hcodes : ∀ t ∈ l, t.shredType = .code → t = .shredCode Sample.code := by
      intro t ht htype
      cases t with
      | shredData d => contradiction
      | shredCode c => exact congrArg Shred.shredCode (hl _ ht).1.2
    obtain rfl := hcodes t ht htype
    obtain rfl : 1 = f := (hl _ ht).2
    have hdata : ∃ s ∈ l, s.shredType = .data := by
      by_contra hnone
      have hsub : (l.map Shred.position).toFinset ⊆ {(.code, 0)} := by
        intro p hp
        rcases List.mem_map.mp (List.mem_toFinset.mp hp) with ⟨s, hs, rfl⟩
        cases hs' : s.shredType with
        | data => exact absurd ⟨s, hs, hs'⟩ hnone
        | code =>
            rw [hcodes s hs hs']
            decide
      have hle := hcard.trans (Finset.card_le_card hsub)
      exact absurd hle (by decide)
    have hrecover : Sample.recover l =
        some (([Sample.data 0 1 1 false, Sample.data 0 2 1 true].filter
          fun s => !l.any fun t => t.position = s.position).map some) := by
      have hany : l.any (fun s => s.shredType = .data) = true := by simpa using hdata
      unfold Sample.recover
      rw [if_pos ⟨ht, hany⟩]
    refine ⟨_, hrecover, ?_⟩
    intro i hi
    have hmember : ∃ s ∈ [Sample.data 0 1 1 false, Sample.data 0 2 1 true],
        s.position = (.data, i) := by
      have hi' : i = 1 ∨ i = 2 := by simpa using (show i ∈ [1, 2] from hi)
      rcases hi' with rfl | rfl
      · exact ⟨_, List.mem_cons_self, rfl⟩
      · exact ⟨_, List.mem_cons_of_mem _ List.mem_cons_self, rfl⟩
    rcases hmember with ⟨s, hs, hpos⟩
    by_cases hheld : l.any (fun t => t.position = s.position) = true
    · rcases List.any_eq_true.mp hheld with ⟨t, ht, heq⟩
      have hpos' : t.position = (.data, i) := (of_decide_eq_true heq).trans hpos
      exact Or.inl ⟨t, ht, congrArg Prod.fst hpos', congrArg Prod.snd hpos'⟩
    · refine Or.inr ⟨s, ?_, congrArg Prod.fst hpos, congrArg Prod.snd hpos⟩
      exact List.mem_map.mpr ⟨s, List.mem_filter.mpr ⟨hs, by simpa using hheld⟩, rfl⟩

end Block

/-- In the first call no data shred was deshredded yet. -/
theorem codesUndisturbed_singleton {ledger : Ledger} {slot : Slot} {c : Call}
    (hfresh : NeverStale ledger [c] slot) : CodesUndisturbed ledger [c] slot := by
  intro b p code hturn hparse hslot
  have hnow := hfresh b p _ hturn hparse hslot
  rcases hturn with ⟨before, c', after, hist, earlier, later, hcalls, hhist, hpackets, hb⟩
  obtain rfl : before = [] := by
    cases before with
    | nil => rfl
    | cons x before => simp at hcalls
  rcases view_of_ingested (sim_of_runCalls hhist) hb hnow with ⟨hgood, hview⟩
  have hflag : (b.allShreds.view slot).deshredded code.commonHeader.index = false := by
    rw [hview, (SlotState.feed_flags _ _).2]
    rfl
  have hlt : code.commonHeader.index <
      (b.allShreds.entry slot).stateTracker.alreadyDeshredded.length := by
    rw [(hgood slot).1.deshredded_length]
    exact (packetShred_admitted hparse).index_lt
  refine Or.inr ?_
  rw [List.getElem?_eq_getElem hlt, Option.some.injEq]
  have hget :
      ((b.allShreds.entry slot).stateTracker.alreadyDeshredded[code.commonHeader.index]?).getD
        false = false := hflag
  rwa [List.getElem?_eq_getElem hlt, Option.getD_some] at hget

/-- When no packet of the block's slot is stale and no coding packet meets the flag of a
deshredded data shred, every set is recovered at its threshold. -/
theorem recovered_at_threshold (ledger : Ledger) (B : Block) (hB : B.Recoverable ledger)
    (calls : List Call) (hfed : B.Fed ledger calls) (hfresh : NeverStale ledger calls B.slot)
    (hcodes : CodesUndisturbed ledger calls B.slot) : B.RecoversAtThreshold ledger calls := by
  intro f positions hpos hcard hseen
  rcases runCalls_sim ledger calls with ⟨h, hh, hsim, _⟩
  refine ⟨h, hh, ?_, ?_⟩
  · intro hkept
    rcases Finset.card_pos.mp (hpos.trans_le hcard) with ⟨p, hp⟩
    rcases hseen p hp with ⟨c, hc, s, hs, hslot, _⟩
    exact (view_of_never_removed hkept hh).2.mpr ⟨c, hc, s, hs, hslot⟩
  · intro entry hentry i hi
    have hmem : B.slot ∈ h.state.allShreds := by
      rw [Std.ExtTreeMap.mem_iff_isSome_getElem?, hentry]
      rfl
    have hview : entry.view = (Machine.runs ledger calls).machine.slots B.slot := by
      rw [← view_of_mem hfresh hh hmem]
      unfold SlotMap.view
      rw [SlotMap.entry_of_getElem? hentry]
    rcases Block.keeping_runs hB hfed hfresh hcodes with ⟨hkeep, hsettled⟩
    rw [← hview] at hkeep hsettled
    have hknown : ∃ s, entry.view.dataShreds i = some s := by
      by_cases hrec : entry.view.recovered f = true
      · exact hkeep.complete f hrec i hi
      · refine hsettled f ?_ i hi
        have hsub : positions ⊆ (Block.heldPositions entry.view f).toFinset := by
          intro p hp
          rcases hseen p hp with ⟨c, hc, s, hs, hslot, rfl, rfl⟩
          rw [List.mem_toFinset]
          refine hkeep.seen s ?_ (by simpa using hrec)
          exact List.mem_flatMap.mpr ⟨c, hc, List.mem_filter.mpr ⟨hs, by simpa using hslot⟩⟩
        calc B.setSize f ≤ positions.card := hcard
          _ ≤ (Block.heldPositions entry.view f).toFinset.card := Finset.card_le_card hsub
          _ ≤ (Block.heldPositions entry.view f).length := List.toFinset_card_le _
          _ = (entry.view.held f).length := List.length_map _
    rcases hknown with ⟨s, hs⟩
    exact ⟨s, getElem?_join_eq_some.mp hs⟩

/-- A run in which one data shred and one coding shred make up for the other data shred of the
set. -/
theorem recovered_at_threshold_sample :
    Block.sample.RecoversAtThreshold Ledger.sample [Sample.call [1, 3]] := by
  have hfresh : NeverStale Ledger.sample [Sample.call [1, 3]] 0 := neverStale_of_close (by decide)
  exact recovered_at_threshold Ledger.sample Block.sample Block.recoverable_sample
    [Sample.call [1, 3]] (Block.fed_sample _) hfresh (codesUndisturbed_singleton hfresh)

/-- The first set of the block is emitted, so the flag of data shred 0 is set when coding
shred 0 of the second set arrives: it is turned away, and the set stays incomplete. -/
theorem coding_shred_turned_away :
    Block.sample.Recoverable Ledger.sample ∧
      Block.sample.Fed Ledger.sample [Sample.call [0], Sample.call [1, 3]] ∧
      NeverStale Ledger.sample [Sample.call [0], Sample.call [1, 3]] Block.sample.slot ∧
      ¬ Block.sample.RecoversAtThreshold Ledger.sample [Sample.call [0], Sample.call [1, 3]] := by
  refine ⟨Block.recoverable_sample, Block.fed_sample _, neverStale_of_close (by decide), ?_⟩
  intro hclaim
  rcases hclaim 1 {(.data, 1), (.code, 0)} (by decide) (by decide) (by decide +kernel) with
    ⟨h, hh, _, hall⟩
  have hsim := sim_of_runCalls hh
  have hview : h.state.allShreds.view 0 =
      (Machine.runs Ledger.sample [Sample.call [0], Sample.call [1, 3]]).machine.slots 0 := by
    rcases hsim.slots 0 with heq | ⟨hold, _⟩
    · exact heq
    · exact absurd hold (by decide)
  have hknown : ∃ entry : SlotEntry, h.state.allShreds[0]? = some entry := by
    rw [← Option.isSome_iff_exists, ← Std.ExtTreeMap.mem_iff_isSome_getElem?]
    by_contra hmem
    have hfirst : ((h.state.allShreds.view 0).dataShreds 0).isSome = true := by
      rw [hview]
      decide +kernel
    unfold SlotMap.view at hfirst
    rw [SlotMap.entry_of_not_mem hmem, SlotEntry.view_default] at hfirst
    exact Bool.false_ne_true hfirst
  rcases hknown with ⟨entry, hentry⟩
  rcases hall entry hentry 2 (by decide) with ⟨s, hs⟩
  have hstored : (h.state.allShreds.view 0).dataShreds 2 = some s := by
    unfold SlotMap.view
    rw [SlotMap.entry_of_getElem? hentry]
    exact getElem?_join_eq_some.mpr hs
  have hmissing : ((Machine.runs Ledger.sample [Sample.call [0], Sample.call [1, 3]]).machine.slots
      0).dataShreds 2 = none := by decide +kernel
  rw [hview, hmissing] at hstored
  exact Option.some_ne_none s hstored.symm

end ShredstreamProxy
