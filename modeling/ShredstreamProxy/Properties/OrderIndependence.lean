import ShredstreamProxy.Deshred.ShredInfo
import ShredstreamProxy.Properties.Pruning

/-!
# Order inside a batch does not matter

Two states of a slot are the same up to order when they differ only in the order of the
shreds inside erasure sets.  Without conflicting shreds, offering two shreds in either
order leads to such states, and recovery and deshredding cannot tell them apart.

Main results:

- Theorem {lit}`SlotState.foldl_offer_perm`: offering a permuted list of shreds.
- Theorem {lit}`SlotState.Same.recover` and {lit}`SlotState.Same.deshred`: the two later
  phases on states that are the same up to order.
- Theorem {lit}`batch_order_irrelevant`: the statement about the code.
-/

namespace ShredstreamProxy

open Exec KeyedFold

variable {ledger : Ledger} {slot : Slot}

/-- The shreds of a run do not conflict: one shred for each slot and position, and the coding
shreds of an erasure set carry the same numbers. -/
structure Consistent (U : Shred → Prop) : Prop where
  unique : ∀ s t, U s → U t → s.slot = t.slot → s.position = t.position → s = t
  sizes : ∀ s t, U (.shredCode s) → U (.shredCode t) → s.commonHeader.slot = t.commonHeader.slot →
    s.commonHeader.fecSetIndex = t.commonHeader.fecSetIndex →
    s.codingHeader.numDataShreds = t.codingHeader.numDataShreds ∧
      s.codingHeader.numCodingShreds = t.codingHeader.numCodingShreds
  size_pos : ∀ s, U (.shredCode s) → 0 < s.codingHeader.numDataShreds

/-! ## Inserting into erasure sets -/

/-- Equal shreds in the sense of hash sets are equal when nothing conflicts. -/
theorem Consistent.eq_of_comparableEq {U : Shred → Prop} (hU : Consistent U) {s t : Shred}
    (hs : U s) (ht : U t) (h : comparableEq ledger s t = true) : s = t := by
  have hheader := comparableEq_header h
  refine hU.unique s t hs ht ?_ ?_
  · exact congrArg ShredCommonHeader.slot hheader.1
  · exact Prod.ext hheader.2 (congrArg ShredCommonHeader.index hheader.1)

/-- Inserting into lists of the same shreds gives lists of the same shreds. -/
theorem insertComparable_perm {l l' : List Shred} (h : l.Perm l') (s : Shred) :
    (insertComparable ledger l s).Perm (insertComparable ledger l' s) := by
  have hany : l.any (comparableEq ledger s) = l'.any (comparableEq ledger s) := h.any_eq
  unfold insertComparable
  rw [hany]
  split
  · exact h
  · exact h.append_right _

/-- Two shreds that do not compare equal may be inserted in either order. -/
theorem insertComparable_swap {l l' : List Shred} (h : l.Perm l') {s t : Shred}
    (hst : comparableEq ledger s t = false) (hts : comparableEq ledger t s = false) :
    (insertComparable ledger (insertComparable ledger l s) t).Perm
      (insertComparable ledger (insertComparable ledger l' t) s) := by
  have hs : l.any (comparableEq ledger s) = l'.any (comparableEq ledger s) := h.any_eq
  have ht : l.any (comparableEq ledger t) = l'.any (comparableEq ledger t) := h.any_eq
  unfold insertComparable
  cases hs' : l'.any (comparableEq ledger s) with
  | true =>
      cases ht' : l'.any (comparableEq ledger t) with
      | true => simpa [hs, ht, hs', ht'] using h
      | false => simpa [hs, ht, hs', ht', hst] using h.append_right [t]
  | false =>
      cases ht' : l'.any (comparableEq ledger t) with
      | true => simpa [hs, ht, hs', ht', hts] using h.append_right [s]
      | false =>
          simp only [hs, hs', Bool.false_eq_true, if_false, List.any_append, ht, ht', List.any_cons,
            hts, hst, List.any_nil, Bool.or_self, List.append_assoc]
          exact h.append (List.Perm.swap t s [])

/-! ## States that are the same up to order -/

namespace SlotState

/-- The states differ only in the order of the shreds inside erasure sets. -/
structure Same (σ τ : SlotState) : Prop where
  dataShreds : σ.dataShreds = τ.dataShreds
  recovered : σ.recovered = τ.recovered
  deshredded : σ.deshredded = τ.deshredded
  fecSets : ∀ f, Option.Rel List.Perm (σ.fecSets f) (τ.fecSets f)

variable {σ τ : SlotState}

theorem Same.refl (σ : SlotState) : Same σ σ := by
  refine ⟨rfl, rfl, rfl, ?_⟩
  intro f
  cases σ.fecSets f with
  | none => exact Option.Rel.none
  | some l => exact Option.Rel.some (List.Perm.refl l)

theorem Same.trans {υ : SlotState} (h : Same σ τ) (h' : Same τ υ) : Same σ υ := by
  refine ⟨h.dataShreds.trans h'.dataShreds, h.recovered.trans h'.recovered,
    h.deshredded.trans h'.deshredded, ?_⟩
  intro f
  have hf := h.fecSets f
  have hf' := h'.fecSets f
  generalize σ.fecSets f = u at hf
  generalize τ.fecSets f = v at hf hf'
  generalize υ.fecSets f = w at hf'
  cases hf with
  | none => exact hf'
  | some hp =>
      cases hf' with
      | some hp' => exact Option.Rel.some (hp.trans hp')

/-- Buckets that are the same up to order are so when a missing one counts as empty. -/
theorem perm_getD_of_rel {o o' : Option (List Shred)} (h : Option.Rel List.Perm o o') :
    (o.getD []).Perm (o'.getD []) := by
  cases h with
  | none => exact List.Perm.refl _
  | some h => exact h

/-- What is held for a set is the same up to order. -/
theorem Same.held (h : Same σ τ) (f : FecSetIndex) : (σ.held f).Perm (τ.held f) :=
  perm_getD_of_rel (h.fecSets f)

/-- Replacing one bucket by the same shreds keeps the buckets the same up to order. -/
theorem rel_update {u v : FecSetIndex → Option (List Shred)}
    (h : ∀ f, Option.Rel List.Perm (u f) (v f)) {g : FecSetIndex} {l l' : List Shred}
    (hl : l.Perm l') (f : FecSetIndex) :
    Option.Rel List.Perm (Function.update u g (some l) f) (Function.update v g (some l') f) := by
  by_cases hf : f = g
  · subst hf
    simpa using Option.Rel.some hl
  · simpa [hf] using h f

/-! ## Offering shreds in another order -/

/-- The slot with the shred added. -/
def accepted (ledger : Ledger) (σ : SlotState) (s : Shred) : SlotState :=
  { σ with
    dataShreds :=
      if s.shredType = .data then Function.update σ.dataShreds s.index (some s) else σ.dataShreds
    fecSets := Function.update σ.fecSets s.fecSetIndex
      (some (insertComparable ledger (σ.held s.fecSetIndex) s)) }

/-- A slot takes a shred that it accepts. -/
theorem offer_of_accepts {w : List FecSetIndex} {s : Shred} (h : σ.Accepts s) :
    offer ledger (σ, w) s = (σ.accepted ledger s, w ++ [s.fecSetIndex]) := by
  have hin : σ.ingest ledger s = some (σ.accepted ledger s) :=
    ingest_eq_some_iff.mpr ⟨h.1, h.2.1, h.2.2, rfl⟩
  simp [offer, hin]

/-- A slot leaves a shred that it does not accept. -/
theorem offer_of_not_accepts {w : List FecSetIndex} {s : Shred} (h : ¬ σ.Accepts s) :
    offer ledger (σ, w) s = (σ, w) := by
  simp [offer, ingest_eq_none_iff.mpr h]

theorem Same.accepts_iff (h : Same σ τ) (s : Shred) : σ.Accepts s ↔ τ.Accepts s := by
  unfold Accepts
  rw [h.recovered, h.deshredded, h.dataShreds]

/-- Taking a shred keeps the slots the same up to order. -/
theorem Same.accepted (h : Same σ τ) (s : Shred) :
    Same (σ.accepted ledger s) (τ.accepted ledger s) := by
  refine ⟨?_, h.recovered, h.deshredded, ?_⟩
  · simp only [SlotState.accepted, h.dataShreds]
  · exact rel_update h.fecSets (insertComparable_perm (h.held _) s)

/-- Taking a shred does not change whether another one is taken, unless both fill the same
position. -/
theorem accepts_accepted_iff {s t : Shred}
    (h : ¬ (s.shredType = .data ∧ t.shredType = .data ∧ s.index = t.index)) :
    (σ.accepted ledger s).Accepts t ↔ σ.Accepts t := by
  unfold Accepts accepted
  simp only
  refine and_congr_right fun _ => and_congr_right fun _ => ?_
  refine forall_congr' fun htype => ?_
  split
  · rename_i hs
    have hne : t.index ≠ s.index := fun heq => h ⟨hs, htype, heq.symm⟩
    rw [Function.update_of_ne hne]
  · rfl

/-- Two shreds of different positions can be taken in either order. -/
theorem accepted_swap (h : Same σ τ) {s t : Shred}
    (hpos : ¬ (s.shredType = .data ∧ t.shredType = .data ∧ s.index = t.index))
    (hst : comparableEq ledger s t = false) (hts : comparableEq ledger t s = false) :
    Same ((σ.accepted ledger s).accepted ledger t) ((τ.accepted ledger t).accepted ledger s) := by
  refine ⟨?_, h.recovered, h.deshredded, ?_⟩
  · simp only [accepted, h.dataShreds]
    by_cases hs : s.shredType = .data
    · by_cases ht : t.shredType = .data
      · have hne : s.index ≠ t.index := fun heq => hpos ⟨hs, ht, heq⟩
        simp only [hs, ht, if_true]
        exact Function.update_comm hne _ _ _
      · simp [hs, ht]
    · by_cases ht : t.shredType = .data <;> simp [hs, ht]
  · intro f
    by_cases hfec : s.fecSetIndex = t.fecSetIndex
    · have hins := insertComparable_swap (h.held t.fecSetIndex) hst hts
      have hrel := @rel_update σ.fecSets τ.fecSets h.fecSets t.fecSetIndex _ _ hins f
      simpa [accepted, SlotState.held, hfec] using hrel
    · have hs := @insertComparable_perm ledger _ _ (h.held s.fecSetIndex) s
      have ht := @insertComparable_perm ledger _ _ (h.held t.fecSetIndex) t
      by_cases hfs : f = s.fecSetIndex
      · subst hfs
        simpa [accepted, SlotState.held, hfec] using Option.Rel.some hs
      · by_cases hft : f = t.fecSetIndex
        · subst hft
          simpa [accepted, SlotState.held, hfs] using Option.Rel.some ht
        · simpa [accepted, hfs, hft] using h.fecSets f

/-- Slots and work lists that agree up to order. -/
def SameFeed (a b : SlotState × List FecSetIndex) : Prop :=
  Same a.1 b.1 ∧ a.2.Perm b.2

/-- Offering a shred keeps slots and work lists the same up to order. -/
theorem SameFeed.offer {a b : SlotState × List FecSetIndex} (h : SameFeed a b) (s : Shred) :
    SameFeed (offer ledger a s) (offer ledger b s) := by
  rcases a with ⟨σ, v⟩
  rcases b with ⟨τ, w⟩
  by_cases hs : σ.Accepts s
  · have hs' : τ.Accepts s := (h.1.accepts_iff s).mp hs
    rw [offer_of_accepts hs, offer_of_accepts hs']
    exact ⟨h.1.accepted s, h.2.append_right _⟩
  · have hs' : ¬ τ.Accepts s := fun hτ => hs ((h.1.accepts_iff s).mpr hτ)
    rw [offer_of_not_accepts hs, offer_of_not_accepts hs']
    exact h

/-- Offering any shreds keeps slots and work lists the same up to order. -/
theorem SameFeed.foldl {a b : SlotState × List FecSetIndex} (h : SameFeed a b) (l : List Shred) :
    SameFeed (l.foldl (SlotState.offer ledger) a) (l.foldl (SlotState.offer ledger) b) := by
  induction l generalizing a b with
  | nil => exact h
  | cons s l ih => exact ih (h.offer s)

/-- Two shreds that do not conflict may be offered in either order. -/
theorem SameFeed.offer_swap {a b : SlotState × List FecSetIndex} (h : SameFeed a b) {s t : Shred}
    (hpos : ¬ (s.shredType = .data ∧ t.shredType = .data ∧ s.index = t.index))
    (hst : comparableEq ledger s t = false) (hts : comparableEq ledger t s = false) :
    SameFeed (SlotState.offer ledger (SlotState.offer ledger a s) t)
      (SlotState.offer ledger (SlotState.offer ledger b t) s) := by
  rcases a with ⟨σ, v⟩
  rcases b with ⟨τ, w⟩
  have hpos' : ¬ (t.shredType = .data ∧ s.shredType = .data ∧ t.index = s.index) :=
    fun hp => hpos ⟨hp.2.1, hp.1, hp.2.2.symm⟩
  have hs := h.1.accepts_iff s
  have ht := h.1.accepts_iff t
  by_cases hσs : σ.Accepts s
  · by_cases hσt : σ.Accepts t
    · rw [offer_of_accepts hσs, offer_of_accepts ((accepts_accepted_iff hpos).mpr hσt),
        offer_of_accepts (ht.mp hσt),
        offer_of_accepts ((accepts_accepted_iff hpos').mpr (hs.mp hσs))]
      refine ⟨accepted_swap h.1 hpos hst hts, ?_⟩
      simp only [List.append_assoc]
      exact h.2.append (List.Perm.swap _ _ [])
    · rw [offer_of_accepts hσs,
        offer_of_not_accepts fun hacc => hσt ((accepts_accepted_iff hpos).mp hacc),
        offer_of_not_accepts fun hacc => hσt (ht.mpr hacc), offer_of_accepts (hs.mp hσs)]
      exact ⟨h.1.accepted s, h.2.append_right _⟩
  · rw [offer_of_not_accepts hσs]
    by_cases hσt : σ.Accepts t
    · rw [offer_of_accepts hσt, offer_of_accepts (ht.mp hσt),
        offer_of_not_accepts fun hacc => hσs (hs.mpr ((accepts_accepted_iff hpos').mp hacc))]
      exact ⟨h.1.accepted t, h.2.append_right _⟩
    · rw [offer_of_not_accepts hσt, offer_of_not_accepts fun hacc => hσt (ht.mpr hacc),
        offer_of_not_accepts fun hacc => hσs (hs.mpr hacc)]
      exact h

/-- A permuted list of shreds of one slot leads to the same slot up to order. -/
theorem foldl_offer_perm (slot : Slot) {U : Shred → Prop} (hU : Consistent U) {l l' : List Shred}
    (hperm : l.Perm l') (hl : ∀ s ∈ l, U s ∧ s.slot = slot) {a b : SlotState × List FecSetIndex}
    (h : SameFeed a b) :
    SameFeed (l.foldl (offer ledger) a) (l'.foldl (offer ledger) b) := by
  induction hperm generalizing a b with
  | nil => exact h
  | cons s _ ih => exact ih (fun t ht => hl t (List.mem_cons_of_mem s ht)) (h.offer s)
  | swap s t l =>
      have hs := hl s (by simp)
      have ht := hl t (by simp)
      simp only [List.foldl_cons]
      by_cases heq : s = t
      · subst heq
        exact ((h.offer s).offer s).foldl l
      · have hslot : t.slot = s.slot := ht.2.trans hs.2.symm
        refine (h.offer_swap ?_ ?_ ?_).foldl l
        · rintro ⟨htype, htype', hindex⟩
          exact heq (hU.unique t s ht.1 hs.1 hslot (Prod.ext (htype.trans htype'.symm) hindex)).symm
        · rw [← Bool.not_eq_true]
          exact fun hcmp => heq (hU.eq_of_comparableEq ht.1 hs.1 hcmp).symm
        · rw [← Bool.not_eq_true]
          exact fun hcmp => heq (hU.eq_of_comparableEq hs.1 ht.1 hcmp)
  | trans h₁ _ ih₁ ih₂ =>
      have hmid := ih₁ hl h
      have hrefl : SameFeed b b := ⟨Same.refl _, List.Perm.refl _⟩
      have hlast := ih₂ (fun s hs => hl s (h₁.mem_iff.mpr hs)) hrefl
      exact ⟨hmid.1.trans hlast.1, hmid.2.trans hlast.2⟩

/-! ## Recovering and deshredding -/

/-- Slots that are the same up to order record the same shreds. -/
theorem Same.record (h : Same σ τ) (s : Shred) :
    Option.Rel Same (σ.record s) (τ.record s) := by
  unfold SlotState.record
  rw [h.recovered, h.dataShreds]
  split
  · exact Option.Rel.none
  · cases s with
    | shredCode c => exact Option.Rel.some h
    | shredData d =>
        simp only
        split
        · exact Option.Rel.none
        · exact Option.Rel.some ⟨rfl, rfl, h.deshredded, h.fecSets⟩

/-- The answer of recovery is recorded and counted in the same way. -/
theorem Same.foldl_recordItem (h : Same σ τ) (n : Nat) (items : List (Option Shred)) :
    Same (items.foldl recordItem (σ, n)).1 (items.foldl recordItem (τ, n)).1 ∧
      (items.foldl recordItem (σ, n)).2 = (items.foldl recordItem (τ, n)).2 := by
  induction items generalizing σ τ n with
  | nil => exact ⟨h, rfl⟩
  | cons item items ih =>
      simp only [List.foldl_cons]
      cases item with
      | none => exact ih h n
      | some s =>
          have hrec := h.record s
          simp only [recordItem]
          generalize σ.record s = u at hrec
          generalize τ.record s = v at hrec
          cases hrec with
          | none => exact ih h n
          | some h' => exact ih h' (n + 1)

theorem Same.touch (h : Same σ τ) (f : FecSetIndex) : Same (σ.touch f) (τ.touch f) :=
  ⟨h.dataShreds, h.recovered, h.deshredded, rel_update h.fecSets (h.held f)⟩

theorem Same.finish (h : Same σ τ) (f : FecSetIndex) : Same (σ.finish f) (τ.finish f) := by
  refine ⟨h.dataShreds, ?_, h.deshredded, rel_update h.fecSets (List.Perm.refl [])⟩
  simp only [SlotState.finish, h.recovered]

/-- A recovery that succeeds keeps the slots the same up to order, with the same count. -/
theorem Same.absorb (h : Same σ τ) (f : FecSetIndex) (items : List (Option Shred)) :
    Same (σ.absorb f items).1 (τ.absorb f items).1 ∧
      (σ.absorb f items).2 = (τ.absorb f items).2 := by
  have hloop := h.foldl_recordItem 0 items
  simp only [SlotState.absorb, ← hloop.2]
  split
  · exact ⟨hloop.1.finish f, rfl⟩
  · exact hloop

/-- The shreds held for the sets of a slot belong to the run. -/
def HeldIn (U : Shred → Prop) (slot : Slot) (σ : SlotState) : Prop :=
  ∀ f, ∀ s ∈ σ.held f, U s ∧ s.slot = slot ∧ s.fecSetIndex = f

/-- The input of recovery does not depend on the order of iteration. -/
theorem sortForRecovery_perm (slot : Slot) {U : Shred → Prop} (hU : Consistent U)
    {l l' : List Shred} (hperm : l.Perm l') (hl : ∀ s ∈ l, U s ∧ s.slot = slot) :
    sortForRecovery l = sortForRecovery l' := by
  have htotal : Std.Total fun s t : Shred => (recoveryKey s).1 < (recoveryKey t).1 ∨
      (recoveryKey s).1 = (recoveryKey t).1 ∧ (recoveryKey s).2 ≤ (recoveryKey t).2 :=
    ⟨fun s t => by omega⟩
  have htrans : IsTrans Shred fun s t => (recoveryKey s).1 < (recoveryKey t).1 ∨
      (recoveryKey s).1 = (recoveryKey t).1 ∧ (recoveryKey s).2 ≤ (recoveryKey t).2 :=
    ⟨fun s t u => by omega⟩
  unfold sortForRecovery
  refine List.Perm.eq_of_pairwise ?_ (List.pairwise_insertionSort _ l)
    (List.pairwise_insertionSort _ l') ?_
  · intro s t hs ht hst hts
    rw [List.mem_insertionSort] at hs ht
    have hs' := hl s hs
    have ht' := hl t (hperm.mem_iff.mpr ht)
    refine hU.unique s t hs'.1 ht'.1 (hs'.2.trans ht'.2.symm) (Prod.ext ?_ ?_)
    · have hkey : (recoveryKey s).1 = (recoveryKey t).1 := by omega
      cases s <;> cases t <;>
        simp [recoveryKey, Shred.shredType, ShredType.toByte, Shred.position] at hkey ⊢
    · have hkey : (recoveryKey s).2 = (recoveryKey t).2 := by omega
      exact hkey
  · exact (List.perm_insertionSort _ l).trans
      (hperm.trans (List.perm_insertionSort _ l').symm)

/-- Without a coding shred recovery fails, so an attempt only creates the set. -/
theorem recover_of_no_code {order : IterOrder} {f : FecSetIndex}
    (hfail : ∀ l, (∀ s ∈ l, s.shredType = .data) → ledger.recover l = none)
    (hdata : ∀ s ∈ σ.held f, s.shredType = .data) :
    σ.recover ledger order f = (σ.touch f, 0) := by
  have hnone : ledger.recover (sortForRecovery (order.iter (σ.held f))) = none := by
    exact hfail _ fun s hs => hdata s (mem_sortForRecovery.mp hs)
  unfold SlotState.recover
  split
  · rw [hnone]
  · rfl

/-- Recovery cannot tell states apart that are the same up to order. -/
theorem Same.recover {U : Shred → Prop} (hU : Consistent U) (h : Same σ τ) (hheld : HeldIn U slot σ)
    (hfail : ∀ l, (∀ s ∈ l, s.shredType = .data) → ledger.recover l = none)
    (order order' : IterOrder) (f : FecSetIndex) :
    Same (σ.recover ledger order f).1 (τ.recover ledger order' f).1 ∧
      (σ.recover ledger order f).2 = (τ.recover ledger order' f).2 := by
  have hperm := h.held f
  by_cases hcode : ∃ s ∈ σ.held f, s.shredType = .code
  · have hiter : (order.iter (σ.held f)).Perm (order'.iter (τ.held f)) :=
      (order.perm _).trans (hperm.trans (order'.perm _).symm)
    have hmem : ∀ s, s ∈ order.iter (σ.held f) ↔ s ∈ σ.held f := fun s =>
      (order.perm _).mem_iff
    rcases hcode with ⟨s, hs, htype⟩
    obtain ⟨c, rfl⟩ : ∃ c, s = .shredCode c := by
      cases s with
      | shredCode c => exact ⟨c, rfl⟩
      | shredData d => contradiction
    have hsize : AgreeOnSize c.codingHeader.numDataShreds c.codingHeader.numCodingShreds
        (order.iter (σ.held f)) := by
      have hc := hheld f _ hs
      refine ⟨hU.size_pos c hc.1, ?_⟩
      intro t ht
      have ht' := hheld f _ ((hmem _).mp ht)
      exact hU.sizes t c ht'.1 hc.1 (ht'.2.1.trans hc.2.1.symm) (ht'.2.2.trans hc.2.2.symm)
    have hinfo := getDataShredInfo_perm hiter hsize ⟨_, (hmem _).mpr hs, htype⟩
    have hsort : sortForRecovery (order.iter (σ.held f)) =
        sortForRecovery (order'.iter (τ.held f)) := by
      refine sortForRecovery_perm slot hU hiter fun t ht => ?_
      have ht' := hheld f _ ((hmem _).mp ht)
      exact ⟨ht'.1, ht'.2.1⟩
    unfold SlotState.recover
    rw [hinfo, hsort, hperm.length_eq]
    split
    · split
      · exact ⟨h.touch f, rfl⟩
      · exact (h.touch f).absorb f _
    · exact ⟨h.touch f, rfl⟩
  · have hdata : ∀ s ∈ σ.held f, s.shredType = .data := by
      intro s hs
      cases htype : s.shredType with
      | data => rfl
      | code => exact absurd ⟨s, hs, htype⟩ hcode
    rw [recover_of_no_code hfail hdata,
      recover_of_no_code hfail fun s hs => hdata s (hperm.mem_iff.mpr hs)]
    exact ⟨h.touch f, rfl⟩

/-- Recovery holds no further shred. -/
theorem HeldIn.recover {U : Shred → Prop} (h : HeldIn U slot σ) (order : IterOrder)
    (f : FecSetIndex) : HeldIn U slot (σ.recover ledger order f).1 :=
  fun g s hs => h g s (mem_held_of_recover hs)

/-- Nor can a deshred attempt. -/
theorem Same.deshred (h : Same σ τ) (f : FecSetIndex) :
    Same (σ.deshred ledger slot f).1 (τ.deshred ledger slot f).1 ∧
      (σ.deshred ledger slot f).2 = (τ.deshred ledger slot f).2 := by
  have hline : σ.line = τ.line := by
    simp only [SlotState.line, h.dataShreds, h.deshredded]
  have hshreds : ∀ a e, σ.shredsIn a e = τ.shredsIn a e := by
    intro a e
    simp only [SlotState.shredsIn, h.dataShreds]
  have hdecode : ∀ a e, σ.decode ledger a e = τ.decode ledger a e := by
    intro a e
    simp only [SlotState.decode, hshreds]
  unfold SlotState.deshred
  rw [hline]
  split
  · exact ⟨h, rfl⟩
  · rename_i a e u _
    simp only [hdecode]
    split
    · exact ⟨h, rfl⟩
    · refine ⟨⟨h.dataShreds, ?_, ?_, h.fecSets⟩, rfl⟩
      · simp only [SlotState.mark, h.recovered, hshreds]
      · simp only [SlotState.mark, h.deshredded]

/-- A slot that takes a shred of the run holds only such shreds. -/
theorem HeldIn.ingest {U : Shred → Prop} (h : HeldIn U slot σ) {s : Shred} (hs : U s)
    (hslot : s.slot = slot) (hin : σ.ingest ledger s = some τ) : HeldIn U slot τ := by
  intro f t ht
  rcases mem_held_of_ingest hin ht with ht | ⟨rfl, rfl⟩
  · exact h f t ht
  · exact ⟨hs, hslot, rfl⟩

theorem heldIn_initial (U : Shred → Prop) (slot : Slot) : HeldIn U slot initial :=
  fun _ _ hs => absurd hs List.not_mem_nil

end SlotState

/-! ## Whole calls of the machine -/

namespace Machine

/-- No shred of the batch is stale with respect to the highest slot seen and the slots of
the batch. -/
def FreshBatch (highest : Slot) (shreds : List Shred) : Prop :=
  ∀ s ∈ shreds, highest - slotLookback ≤ s.slot ∧ ∀ t ∈ shreds, t.slot - slotLookback ≤ s.slot

/-- Of a fresh batch, every shred of a slot is offered to it. -/
theorem offered_of_fresh {m : Machine} {shreds : List Shred} (h : FreshBatch m.highest shreds)
    (slot : Slot) : m.offered ledger shreds slot = shreds.filter fun s => s.slot = slot := by
  refine Feed.live_filter_of_fresh ?_
  intro pre s post hsplit hslot hstale
  have hs : s ∈ shreds := by simp [hsplit]
  have hle : (pre.foldl (Feed.ingest ledger) m.toFeed).highest - slotLookback ≤ s.slot := by
    rcases @Feed.highest_foldl_cases ledger m.toFeed pre with heq | ⟨f, hf⟩
    · rw [heq]
      exact (h s hs).1
    · rcases Feed.exists_of_mem_work hf with hnil | ⟨t, ht, heq⟩
      · exact absurd hnil List.not_mem_nil
      · have htslot := congrArg Prod.fst heq
        simp only at htslot
        rw [← htslot]
        exact (h s hs).2 t (by simp [hsplit, ht])
  rw [hslot] at hle
  exact absurd hstale (Nat.not_lt_of_le hle)

/-- A batch is fresh in every order. -/
theorem FreshBatch.perm {highest : Slot} {shreds shreds' : List Shred}
    (h : FreshBatch highest shreds) (hperm : shreds.Perm shreds') : FreshBatch highest shreds' := by
  intro s hs
  have hold := h s (hperm.mem_iff.mpr hs)
  exact ⟨hold.1, fun t ht => hold.2 t (hperm.mem_iff.mpr ht)⟩

/-- The highest slot of a feed is determined by the sets it lists. -/
theorem highest_foldl_le {m : Machine} {shreds shreds' : List Shred}
    (hwork : ∀ w ∈ (shreds.foldl (Feed.ingest ledger) m.toFeed).work,
      w ∈ (shreds'.foldl (Feed.ingest ledger) m.toFeed).work) :
    (shreds.foldl (Feed.ingest ledger) m.toFeed).highest ≤
      (shreds'.foldl (Feed.ingest ledger) m.toFeed).highest := by
  rcases @Feed.highest_foldl_cases ledger m.toFeed shreds with heq | ⟨f, hf⟩
  · rw [heq]
    exact Feed.highest_le_foldl m.toFeed shreds'
  · exact Feed.work_le_highest (m := m.toFeed) (fun w hw => absurd hw List.not_mem_nil) shreds' _
      (hwork _ hf)

/-- A permuted batch feeds every slot the same up to order. -/
theorem sameFeed_perm {U : Shred → Prop} (hU : Consistent U) {m : Machine}
    {shreds shreds' : List Shred} (hperm : shreds.Perm shreds') (hshreds : ∀ s ∈ shreds, U s)
    (hfresh : FreshBatch m.highest shreds) (slot : Slot) :
    SlotState.SameFeed
      ((shreds.foldl (Feed.ingest ledger) m.toFeed).slots slot,
        atKey slot (shreds.foldl (Feed.ingest ledger) m.toFeed).work)
      ((shreds'.foldl (Feed.ingest ledger) m.toFeed).slots slot,
        atKey slot (shreds'.foldl (Feed.ingest ledger) m.toFeed).work) := by
  rw [feed_slot, feed_slot, offered_of_fresh hfresh, offered_of_fresh (hfresh.perm hperm)]
  refine SlotState.foldl_offer_perm slot hU (hperm.filter _) ?_
    ⟨SlotState.Same.refl _, List.Perm.refl _⟩
  intro s hs
  rw [List.mem_filter, decide_eq_true_eq] at hs
  exact ⟨hshreds s hs.1, hs.2⟩

/-- The ingest loop holds only shreds of the run. -/
theorem heldIn_foldl {U : Shred → Prop} {m : Machine} {slot : Slot}
    (hheld : (m.slots slot).HeldIn U slot) {shreds : List Shred} (hshreds : ∀ s ∈ shreds, U s) :
    ((shreds.foldl (Feed.ingest ledger) m.toFeed).slots slot).HeldIn U slot := by
  have hstate := congrArg Prod.fst (@feed_slot ledger m shreds slot)
  simp only at hstate
  rw [hstate]
  refine (SlotState.feed_invariant (P := fun σ _ => σ.HeldIn U slot) [] hheld ?_).1
  intro σ s σ' hs hσ hin
  have hs' := (offered_sublist _ _ _).subset hs
  rw [List.mem_filter, decide_eq_true_eq] at hs'
  exact hσ.ingest (hshreds s hs'.1) hs'.2 hin

/-- A permuted batch, iterated in another order, has the same outcome up to order. -/
theorem process_perm {U : Shred → Prop} (hU : Consistent U)
    (hfail : ∀ l, (∀ s ∈ l, s.shredType = .data) → ledger.recover l = none) {m : Machine}
    (hheld : ∀ slot, (m.slots slot).HeldIn U slot) {shreds shreds' : List Shred}
    (hperm : shreds.Perm shreds') (hshreds : ∀ s ∈ shreds, U s)
    (hfresh : FreshBatch m.highest shreds) (order order' : IterOrder) :
    (∀ slot, ((m.process ledger order shreds).machine.slots slot).Same
        ((m.process ledger order' shreds').machine.slots slot)) ∧
      (m.process ledger order shreds).machine.highest =
        (m.process ledger order' shreds').machine.highest ∧
      (m.process ledger order shreds).emitted = (m.process ledger order' shreds').emitted ∧
      (m.process ledger order shreds).count = (m.process ledger order' shreds').count := by
  have hslot := @sameFeed_perm ledger U hU m shreds shreds' hperm hshreds hfresh
  have hheldFeed := fun slot => @heldIn_foldl ledger U m slot (hheld slot) shreds hshreds
  have hmem : ∀ w, w ∈ (shreds.foldl (Feed.ingest ledger) m.toFeed).work ↔
      w ∈ (shreds'.foldl (Feed.ingest ledger) m.toFeed).work := by
    rintro ⟨slot, f⟩
    rw [← mem_atKey, ← mem_atKey]
    exact (hslot slot).2.mem_iff
  have hhighest : (shreds.foldl (Feed.ingest ledger) m.toFeed).highest =
      (shreds'.foldl (Feed.ingest ledger) m.toFeed).highest :=
    le_antisymm (highest_foldl_le fun w hw => (hmem w).mp hw)
      (highest_foldl_le fun w hw => (hmem w).mpr hw)
  set feed := shreds.foldl (Feed.ingest ledger) m.toFeed with hfeed
  set feed' := shreds'.foldl (Feed.ingest ledger) m.toFeed with hfeed'
  have hwork : sortDedup lexLe feed.work = sortDedup lexLe feed'.work := sortDedup_congr hmem
  have hrec := keyedRun_congr (l := sortDedup lexLe feed'.work)
    (R := fun slot σ τ => SlotState.Same σ τ ∧ σ.HeldIn U slot)
    (fun _ σ f => σ.recover ledger order f) (fun _ σ f => σ.recover ledger order' f)
    (fun w _ σ τ hστ => by
      have hstep := hστ.1.recover hU hστ.2 hfail order order' w.2
      exact ⟨⟨hstep.1, hστ.2.recover order w.2⟩, hstep.2⟩)
    (fun slot => ⟨(hslot slot).1, hheldFeed slot⟩)
  have hdes := keyedRun_congr (l := sortDedup lexLe feed'.work)
    (R := fun _ σ τ => SlotState.Same σ τ)
    (fun slot σ f => σ.deshred ledger slot f) (fun slot σ f => σ.deshred ledger slot f)
    (fun w _ σ τ hστ => hστ.deshred w.2) (fun slot => (hrec.1 slot).1)
  simp only [process, ← hfeed, ← hfeed', hwork]
  refine ⟨hdes.1, hhighest, ?_, ?_⟩
  · rw [hdes.2]
  · rw [hrec.2]

end Machine

/-! ## The code -/

/-- Any two packets of the run that carry a shred of the same slot, type and index are
byte-identical, and all coding shreds of one erasure set carry the same numbers of shreds,
with at least one data shred. -/
structure NoConflict (ledger : Ledger) (packets : List Packet) : Prop where
  identical : ∀ p ∈ packets, ∀ q ∈ packets, ∀ s t, packetShred ledger p = some s →
    packetShred ledger q = some t → s.slot = t.slot → s.shredType = t.shredType →
    s.index = t.index → p.data = q.data
  sizes : ∀ p ∈ packets, ∀ q ∈ packets, ∀ s t, packetShred ledger p = some (.shredCode s) →
    packetShred ledger q = some (.shredCode t) → s.commonHeader.slot = t.commonHeader.slot →
    s.commonHeader.fecSetIndex = t.commonHeader.fecSetIndex →
    s.codingHeader.numDataShreds = t.codingHeader.numDataShreds ∧
      s.codingHeader.numCodingShreds = t.codingHeader.numCodingShreds
  size_pos : ∀ p ∈ packets, ∀ s, packetShred ledger p = some (.shredCode s) →
    1 ≤ s.codingHeader.numDataShreds

/-- The shred is carried by one of the packets. -/
def Carried (ledger : Ledger) (packets : List Packet) (s : Shred) : Prop :=
  ∃ p ∈ packets, packetShred ledger p = some s

/-- Packets without conflict carry consistent shreds. -/
theorem NoConflict.consistent {packets : List Packet} (h : NoConflict ledger packets) :
    Consistent (Carried ledger packets) := by
  refine ⟨?_, ?_, ?_⟩
  · rintro s t ⟨p, hp, hs⟩ ⟨q, hq, ht⟩ hslot hpos
    have hdata := h.identical p hp q hq s t hs ht hslot (congrArg Prod.fst hpos)
      (congrArg Prod.snd hpos)
    unfold packetShred at hs ht
    rw [hdata, ht] at hs
    exact (Option.some.inj hs).symm
  · rintro s t ⟨p, hp, hs⟩ ⟨q, hq, ht⟩
    exact h.sizes p hp q hq s t hs ht
  · rintro s ⟨p, hp, hs⟩
    exact h.size_pos p hp s hs

/-- Along a run, a slot holds only shreds that its packets carry. -/
theorem heldIn_runs {calls : List Call} {packets : List Packet}
    (h : ∀ c ∈ calls, ∀ p ∈ c.packets, p ∈ packets) (slot : Slot) :
    ((Machine.runs ledger calls).machine.slots slot).HeldIn (Carried ledger packets) slot := by
  refine Machine.runs_slot_invariant (P := fun σ _ => σ.HeldIn (Carried ledger packets) slot) slot
    calls (SlotState.heldIn_initial _ slot) ?_ ?_ ?_
  · rintro σ _ s σ' ⟨c, hc, hs⟩ hslot hσ hin
    rcases List.mem_filterMap.mp hs with ⟨p, hp, hs⟩
    exact hσ.ingest ⟨p, h c hc p hp, hs⟩ hslot hin
  · exact fun σ _ order f _ hσ => hσ.recover order f
  · intro σ _ f _ hσ g s hs
    rw [SlotState.held_deshred] at hs
    exact hσ g s hs

/-- The maps hold the same slots, with equal trackers and equal erasure sets up to the order
of their shreds. -/
def SameShreds (m m' : SlotMap) : Prop :=
  ∀ slot : Slot, Option.Rel (fun e e' : SlotEntry => e.stateTracker = e'.stateTracker ∧
    ∀ f : FecSetIndex, Option.Rel List.Perm e.fecSets[f]? e'.fecSets[f]?) m[slot]? m'[slot]?

/-- Maps that track the same slots have the same size. -/
theorem SlotMap.size_eq_of_mem_iff {m m' : SlotMap} (h : ∀ slot, slot ∈ m ↔ slot ∈ m') :
    m.size = m'.size := by
  have hperm : m.keys.Perm m'.keys := by
    refine (List.perm_ext_iff_of_nodup Std.ExtTreeMap.nodup_keys Std.ExtTreeMap.nodup_keys).mpr ?_
    intro slot
    rw [Std.ExtTreeMap.mem_keys, Std.ExtTreeMap.mem_keys, h slot]
  rw [← Std.ExtTreeMap.length_keys, ← Std.ExtTreeMap.length_keys, hperm.length_eq]

/-- Pruning keeps maps the same up to order. -/
theorem SameShreds.retained {m m' : SlotMap} (h : SameShreds m m') (highestSlotSeen : Slot) :
    SameShreds (m.retained highestSlotSeen) (m'.retained highestSlotSeen) := by
  have hmem : ∀ slot, slot ∈ m ↔ slot ∈ m' := by
    intro slot
    rw [Std.ExtTreeMap.mem_iff_isSome_getElem?, Std.ExtTreeMap.mem_iff_isSome_getElem?]
    have hslot := h slot
    generalize m[slot]? = o at hslot
    generalize m'[slot]? = o' at hslot
    cases hslot <;> simp
  intro slot
  rw [SlotMap.getElem?_retained, SlotMap.getElem?_retained, SlotMap.size_eq_of_mem_iff hmem]
  split
  · exact Option.Rel.none
  · exact h slot

/-- Maps whose views are the same up to order are so themselves. -/
theorem sameShreds_of_view {m m' : SlotMap} (hgood : m.Good) (hgood' : m'.Good)
    (hmem : ∀ slot, slot ∈ m ↔ slot ∈ m') (h : ∀ slot, (m.view slot).Same (m'.view slot)) :
    SameShreds m m' := by
  intro slot
  have hslot := hmem slot
  rw [Std.ExtTreeMap.mem_iff_isSome_getElem?, Std.ExtTreeMap.mem_iff_isSome_getElem?] at hslot
  cases he : m[slot]? with
  | none =>
      cases he' : m'[slot]? with
      | none => exact Option.Rel.none
      | some e' => simp [he, he'] at hslot
  | some e =>
      cases he' : m'[slot]? with
      | none => simp [he, he'] at hslot
      | some e' =>
          have hsame := h slot
          have hwf := (hgood slot).1
          have hwf' := (hgood' slot).1
          unfold SlotMap.view at hsame
          rw [SlotMap.entry_of_getElem? he] at hsame hwf
          rw [SlotMap.entry_of_getElem? he'] at hsame hwf'
          refine Option.Rel.some ⟨?_, hsame.fecSets⟩
          exact ShredsStateTracker.eq_of_view hwf hwf' hsame.dataShreds hsame.recovered
            hsame.deshredded

/-- From every reachable state, a batch without stale or conflicting packets, any
permutation of it and any iteration order of the hash sets lead to the same map, the same
pushed items in the same order, the same highest slot and the same count. -/
theorem batch_order_irrelevant (ledger : Ledger) (calls : List Call) (h : History)
    (hh : runCalls ledger calls = .ok h) (c c' : Call) (hperm : c.packets.Perm c'.packets)
    (hconflict : NoConflict ledger (calls.flatMap Call.packets ++ c.packets))
    (hfail : ∀ l, (∀ s ∈ l, s.shredType = .data) → ledger.recover l = none)
    (hfresh : Machine.FreshBatch h.state.highestSlotSeen (c.shreds ledger)) :
    ∃ r r', reconstructShreds ledger c h.state = .ok r ∧
      reconstructShreds ledger c' h.state = .ok r' ∧
      SameShreds r.state.allShreds r'.state.allShreds ∧
      r.deshreddedEntries = r'.deshreddedEntries ∧
      r.state.highestSlotSeen = r'.state.highestSlotSeen ∧
      r.recoveredCount = r'.recoveredCount := by
  have hsim := sim_of_runCalls hh
  have hheld : ∀ slot, (h.state.view.slots slot).HeldIn
      (Carried ledger (calls.flatMap Call.packets ++ c.packets)) slot := by
    intro slot
    rcases hsim.slots slot with heq | ⟨_, heq⟩
    · have hruns := @heldIn_runs ledger calls (calls.flatMap Call.packets ++ c.packets)
        (fun c' hc' p hp => List.mem_append_left _ (List.mem_flatMap.mpr ⟨c', hc', hp⟩)) slot
      rw [← heq] at hruns
      exact hruns
    · change (h.state.allShreds.view slot).HeldIn _ slot
      rw [heq]
      exact SlotState.heldIn_initial _ slot
  have hshreds : (c.shreds ledger).Perm (c'.shreds ledger) := hperm.filterMap _
  have hcarried : ∀ s ∈ c.shreds ledger,
      Carried ledger (calls.flatMap Call.packets ++ c.packets) s := by
    intro s hs
    rcases List.mem_filterMap.mp hs with ⟨p, hp, hs⟩
    exact ⟨p, List.mem_append_right _ hp, hs⟩
  have hsame := Machine.process_perm hconflict.consistent hfail hheld hshreds hcarried hfresh
    c.order c'.order
  rcases @reconstructShredsNoRetain_refines ledger h.state hsim.good c with
    ⟨r, hr, hgood, hview, hmatch, hkeys⟩
  rcases @reconstructShredsNoRetain_refines ledger h.state hsim.good c' with
    ⟨r', hr', hgood', hview', hmatch', hkeys'⟩
  rcases reconstructShreds_eq hr hgood with ⟨q, hq, hstate, _, hpushed, hcount⟩
  rcases reconstructShreds_eq hr' hgood' with ⟨q', hq', hstate', _, hpushed', hcount'⟩
  have hhighest : r.state.highestSlotSeen = r'.state.highestSlotSeen :=
    hmatch.highest.trans (hsame.2.1.trans hmatch'.highest.symm)
  refine ⟨q, q', hq, hq', ?_, ?_, ?_, ?_⟩
  · rw [hstate, hstate']
    simp only [hhighest]
    refine SameShreds.retained (sameShreds_of_view hgood hgood' ?_ ?_) _
    · intro slot
      simp only [hkeys, hkeys', hshreds.mem_iff]
    · intro slot
      have hslot := hsame.1 slot
      rw [← Machine.call, ← Machine.call, ← hview, ← hview'] at hslot
      exact hslot
  · rw [hpushed, hpushed', hmatch.emitted, hmatch'.emitted]
    exact hsame.2.2.1
  · rw [hstate, hstate']
    exact hhighest
  · rw [hcount, hcount', hmatch.count, hmatch'.count]
    exact hsame.2.2.2

namespace Sample

/-- The first data shred, and the coding shred from which data shred 2 is recovered. -/
def recovering : Call := call [0, 3]

/-- The same packets the other way round, with the other iteration order. -/
def recoveringBack : Call := { call [3, 0] with order := IterOrder.reversed }

end Sample

/-- Data shred 1 of the small ledger is known.  In either order, the coding shred is accepted, data
shred 2 is recovered, and the two segments of the slot are pushed. -/
theorem batch_order_irrelevant_sample :
    ∃ h r r', runCalls Ledger.sample [Sample.call [1]] = .ok h ∧
      reconstructShreds Ledger.sample Sample.recovering h.state = .ok r ∧
      reconstructShreds Ledger.sample Sample.recoveringBack h.state = .ok r' ∧
      r.recoveredCount = 1 ∧ r.deshreddedEntries.map Deshredded.payload = [[0], [1, 2]] ∧
      SameShreds r.state.allShreds r'.state.allShreds ∧
      r.deshreddedEntries = r'.deshreddedEntries ∧
      r.state.highestSlotSeen = r'.state.highestSlotSeen ∧
      r.recoveredCount = r'.recoveredCount := by
  rcases runCalls_sim Ledger.sample [Sample.call [1]] with ⟨h, hh, hsim, _⟩
  have hcode : ∀ p ∈ [Sample.call [1]].flatMap Call.packets ++ Sample.recovering.packets,
      ∀ s ∈ packetShred Ledger.sample p, s.shredType = .code → s = .shredCode Sample.code := by
    decide +kernel
  have hsame : ∀ p ∈ [Sample.call [1]].flatMap Call.packets ++ Sample.recovering.packets,
      ∀ s, packetShred Ledger.sample p = some (.shredCode s) → s = Sample.code :=
    fun p hp s hs => Shred.shredCode.inj (hcode p hp _ hs rfl)
  have hidentical : ∀ p ∈ [Sample.call [1]].flatMap Call.packets ++ Sample.recovering.packets,
      ∀ q ∈ [Sample.call [1]].flatMap Call.packets ++ Sample.recovering.packets,
      ∀ s ∈ packetShred Ledger.sample p, ∀ t ∈ packetShred Ledger.sample q, s.slot = t.slot →
        s.shredType = t.shredType → s.index = t.index → p.data = q.data := by
    decide
  have hfail : ∀ l, (∀ s ∈ l, s.shredType = .data) → Ledger.sample.recover l = none := by
    intro l hl
    have hnone : .shredCode Sample.code ∉ l := fun hmem => nomatch hl _ hmem
    simp [Ledger.sample, Sample.recover, hnone]
  have hfresh : Machine.FreshBatch h.state.highestSlotSeen
      (Sample.recovering.shreds Ledger.sample) := by
    rw [hsim.highest]
    unfold Machine.FreshBatch
    decide
  rcases batch_order_irrelevant Ledger.sample [Sample.call [1]] h hh Sample.recovering
    Sample.recoveringBack (List.Perm.swap _ _ _)
    ⟨fun p hp q hq s t hs ht => hidentical p hp q hq s hs t ht,
      fun p hp q hq s t hs ht _ _ => by rw [hsame p hp s hs, hsame q hq t ht]; exact ⟨rfl, rfl⟩,
      fun p hp s hs => by rw [hsame p hp s hs]; decide⟩ hfail hfresh with
    ⟨r, r', hr, hr', hrest⟩
  rcases reconstructShreds_sim hsim Sample.recovering with ⟨r₀, hr₀, _, hmatch⟩
  obtain rfl := Except.ok.inj (hr.symm.trans hr₀)
  refine ⟨h, r, r', hh, hr, hr', ?_, ?_, hrest⟩
  · rw [hmatch.count]
    decide +kernel
  · rw [hmatch.emitted]
    decide +kernel

end ShredstreamProxy
