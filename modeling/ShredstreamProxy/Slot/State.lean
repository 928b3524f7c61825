import ShredstreamProxy.Deshred.Reconstruct
import ShredstreamProxy.Lib.Segment

/-!
# One slot as a total machine

The abstract view of one slot forgets vectors and panics: erasure sets, data shreds
and the two families of flags are functions.  Its four operations are the phases of
a call seen from one slot.  This module defines them and proves, once for each
operation, what it can change; everything later argues from these step lemmas.

Main results:

- Theorem {lit}`SlotState.ingest_eq_some_iff`: when a shred is accepted, and what changes.
- Theorem {lit}`SlotState.recover_spec`: what a recovery attempt can change.
- Theorem {lit}`SlotState.deshred_cases`: a deshred attempt fails and changes nothing, or
  emits exactly the segment it found and marks it.
-/

namespace ShredstreamProxy

open Segment

/-- The state of one slot. -/
structure SlotState where
  fecSets : FecSetIndex → Option (List Shred)
  dataShreds : Nat → Option Shred
  recovered : FecSetIndex → Bool
  deshredded : Nat → Bool

namespace SlotState

/-- Nothing is known about the slot. -/
def initial : SlotState where
  fecSets := fun _ => none
  dataShreds := fun _ => none
  recovered := fun _ => false
  deshredded := fun _ => false

/-! ## Operations -/

/-- The positions of the slot as a line of cells. -/
def line (σ : SlotState) : Line where
  known i := (σ.dataShreds i).isSome
  close i := (σ.dataShreds i).any Shred.completes
  used := σ.deshredded

/-- Record a received or recovered shred; {lean}`none` when it is not new. -/
def record (σ : SlotState) (shred : Shred) : Option SlotState :=
  if σ.recovered shred.fecSetIndex then none
  else
    match shred with
    | .shredCode _ => some σ
    | .shredData _ =>
        if (σ.dataShreds shred.index).isSome then none
        else some { σ with dataShreds := Function.update σ.dataShreds shred.index (some shred) }

/-- The shreds held for an erasure set. -/
def held (σ : SlotState) (f : FecSetIndex) : List Shred :=
  (σ.fecSets f).getD []

/-- Offer a received shred; {lean}`none` when it is dropped. -/
def ingest (ledger : Ledger) (σ : SlotState) (shred : Shred) : Option SlotState :=
  if σ.recovered shred.fecSetIndex || σ.deshredded shred.index then none
  else
    (σ.record shred).map fun σ' =>
      { σ' with
        fecSets := Function.update σ'.fecSets shred.fecSetIndex
          (some (insertComparable ledger (σ'.held shred.fecSetIndex) shred)) }

/-- Record one result of recovery, counting those that are new. -/
def recordItem (acc : SlotState × Nat) : Option Shred → SlotState × Nat
  | none => acc
  | some shred =>
      match acc.1.record shred with
      | none => acc
      | some σ => (σ, acc.2 + 1)

/-- Create the erasure set if it does not exist. -/
def touch (σ : SlotState) (f : FecSetIndex) : SlotState :=
  { σ with fecSets := Function.update σ.fecSets f (some (σ.held f)) }

/-- The set is complete: flag it and forget its shreds. -/
def finish (σ : SlotState) (f : FecSetIndex) : SlotState :=
  { σ with
    fecSets := Function.update σ.fecSets f (some [])
    recovered := Function.update σ.recovered f true }

/-- The outcome of recovery when the ledger returned a list of results. -/
def absorb (σ : SlotState) (f : FecSetIndex) (items : List (Option Shred)) : SlotState × Nat :=
  let r := items.foldl recordItem (σ, 0)
  if 0 < r.2 then (r.1.finish f, r.2) else r

/-- Try to recover an erasure set. -/
def recover (ledger : Ledger) (order : IterOrder) (σ : SlotState) (f : FecSetIndex) :
    SlotState × Nat :=
  if needsRecovery (getDataShredInfo (order.iter (σ.held f))) (σ.held f).length then
    match ledger.recover (sortForRecovery (order.iter (σ.held f))) with
    | none => (σ.touch f, 0)
    | some items => (σ.touch f).absorb f items
  else (σ.touch f, 0)

/-- The data shreds at positions `a` to `e`. -/
def shredsIn (σ : SlotState) (a e : Nat) : List Shred :=
  (List.range' a (e + 1 - a)).filterMap σ.dataShreds

/-- Flag a range of positions, and the erasure sets of its shreds, as done. -/
def mark (σ : SlotState) (a e : Nat) : SlotState :=
  { σ with
    recovered := fun f => σ.recovered f || (σ.shredsIn a e).any fun s => s.fecSetIndex = f
    deshredded := fun j => σ.deshredded j || decide (a ≤ j ∧ j ≤ e) }

/-- Decode the shreds at positions `a` to `e`. -/
def decode (ledger : Ledger) (σ : SlotState) (a e : Nat) : Option (Bytes × List Entry) :=
  (ledger.deshred ((σ.shredsIn a e).map Shred.payload)).bind fun payload =>
    (ledger.deserialize payload).map fun entries => (payload, entries)

/-- Try to deshred and decode the segment around position `f`. -/
def deshred (ledger : Ledger) (slot : Slot) (σ : SlotState) (f : FecSetIndex) :
    SlotState × Option Deshredded :=
  match segmentAt σ.line maxDataShredsPerSlot f with
  | none => (σ, none)
  | some (a, e, u) =>
      match σ.decode ledger a e with
      | none => (σ, none)
      | some (payload, entries) => (σ.mark a e, some ⟨slot, a, e, u, entries, payload⟩)

/-! ## What each operation changes -/

/-- A new shred belongs to an unfinished set; a coding shred changes nothing, and a data
shred fills its empty position. -/
theorem record_eq_some_iff {σ σ' : SlotState} {s : Shred} :
    σ.record s = some σ' ↔
      σ.recovered s.fecSetIndex = false ∧
        ((s.shredType = .code ∧ σ' = σ) ∨
          (s.shredType = .data ∧ σ.dataShreds s.index = none ∧
            σ' = { σ with dataShreds := Function.update σ.dataShreds s.index (some s) })) := by
  unfold record
  cases hrec : σ.recovered s.fecSetIndex with
  | true => simp
  | false =>
      cases s with
      | shredCode c => simp [Shred.shredType, eq_comm]
      | shredData d =>
          cases hpos : σ.dataShreds (Shred.shredData d).index with
          | none => simp [Shred.shredType, eq_comm]
          | some t => simp [Shred.shredType]

/-- When a slot takes a shred, and what it then holds. -/
theorem ingest_eq_some_iff {ledger : Ledger} {σ σ' : SlotState} {s : Shred} :
    σ.ingest ledger s = some σ' ↔
      σ.recovered s.fecSetIndex = false ∧ σ.deshredded s.index = false ∧
        (s.shredType = .data → σ.dataShreds s.index = none) ∧
        σ' =
          { σ with
            dataShreds :=
              if s.shredType = .data then Function.update σ.dataShreds s.index (some s)
              else σ.dataShreds
            fecSets := Function.update σ.fecSets s.fecSetIndex
              (some (insertComparable ledger (σ.held s.fecSetIndex) s)) } := by
  unfold ingest
  cases hrec : σ.recovered s.fecSetIndex with
  | true => simp
  | false =>
      cases hdes : σ.deshredded s.index with
      | true => simp
      | false =>
          simp only [Bool.or_self, Bool.false_eq_true, if_false, Option.map_eq_some_iff,
            record_eq_some_iff, hrec, true_and]
          cases htype : s.shredType with
          | code => simp [eq_comm]
          | data =>
              simp only [reduceCtorEq, false_and, false_or, true_and, true_imp_iff, if_true]
              constructor
              · rintro ⟨τ, ⟨hnone, rfl⟩, rfl⟩
                exact ⟨hnone, rfl⟩
              · rintro ⟨hnone, rfl⟩
                exact ⟨_, ⟨hnone, rfl⟩, rfl⟩

/-- The slot takes the shred. -/
def Accepts (σ : SlotState) (s : Shred) : Prop :=
  σ.recovered s.fecSetIndex = false ∧ σ.deshredded s.index = false ∧
    (s.shredType = .data → σ.dataShreds s.index = none)

/-- A slot turns away exactly the shreds that it does not accept. -/
theorem ingest_eq_none_iff {ledger : Ledger} {σ : SlotState} {s : Shred} :
    σ.ingest ledger s = none ↔ ¬ σ.Accepts s := by
  constructor
  · intro h hacc
    rw [ingest_eq_some_iff.mpr ⟨hacc.1, hacc.2.1, hacc.2.2, rfl⟩] at h
    contradiction
  · intro hacc
    cases h : σ.ingest ledger s with
    | none => rfl
    | some σ' =>
        rcases ingest_eq_some_iff.mp h with ⟨h₁, h₂, h₃, _⟩
        exact absurd ⟨h₁, h₂, h₃⟩ hacc

/-- What recording a list of recovery results can do to a slot. -/
structure Recorded (σ σ' : SlotState) (items : List (Option Shred)) : Prop where
  fecSets_eq : σ'.fecSets = σ.fecSets
  recovered_eq : σ'.recovered = σ.recovered
  deshredded_eq : σ'.deshredded = σ.deshredded
  mono : ∀ i s, σ.dataShreds i = some s → σ'.dataShreds i = some s
  source : ∀ i s, σ'.dataShreds i = some s →
    σ.dataShreds i = some s ∨ (some s ∈ items ∧ s.shredType = .data ∧ s.index = i)
  covers : ∀ s, some s ∈ items → s.shredType = .data →
    σ.recovered s.fecSetIndex = false → (σ'.dataShreds s.index).isSome

theorem Recorded.refl (σ : SlotState) (items : List (Option Shred))
    (h : ∀ s, some s ∈ items → s.shredType = .data → σ.recovered s.fecSetIndex = false →
      (σ.dataShreds s.index).isSome) : Recorded σ σ items :=
  ⟨rfl, rfl, rfl, fun _ _ h => h, fun _ _ h => Or.inl h, h⟩

theorem Recorded.trans {σ₁ σ₂ σ₃ : SlotState} {item : Option Shred} {items : List (Option Shred)}
    (h₁ : Recorded σ₁ σ₂ [item]) (h₂ : Recorded σ₂ σ₃ items) : Recorded σ₁ σ₃ (item :: items) where
  fecSets_eq := h₂.fecSets_eq.trans h₁.fecSets_eq
  recovered_eq := h₂.recovered_eq.trans h₁.recovered_eq
  deshredded_eq := h₂.deshredded_eq.trans h₁.deshredded_eq
  mono := fun i s h => h₂.mono i s (h₁.mono i s h)
  source := by
    intro i s h
    rcases h₂.source i s h with h | ⟨hmem, h⟩
    · rcases h₁.source i s h with h | ⟨hmem, h⟩
      · exact Or.inl h
      · exact Or.inr ⟨by simpa using Or.inl (List.mem_singleton.mp hmem), h⟩
    · exact Or.inr ⟨List.mem_cons_of_mem _ hmem, h⟩
  covers := by
    intro s hmem htype hrec
    rcases List.mem_cons.mp hmem with hmem | hmem
    · have h := h₁.covers s (by simp [hmem]) htype hrec
      rcases Option.isSome_iff_exists.mp h with ⟨t, ht⟩
      simp [h₂.mono _ _ ht]
    · exact h₂.covers s hmem htype (by rw [h₁.recovered_eq]; exact hrec)

/-- One result is recorded, and is not counted only if the slot stays the same. -/
theorem recordItem_spec (σ : SlotState) (n : Nat) (item : Option Shred) :
    Recorded σ (recordItem (σ, n) item).1 [item] ∧ n ≤ (recordItem (σ, n) item).2 ∧
      ((recordItem (σ, n) item).2 = n → (recordItem (σ, n) item).1 = σ) := by
  cases item with
  | none => exact ⟨Recorded.refl σ _ (by simp), le_rfl, fun _ => rfl⟩
  | some s =>
      cases hrecord : σ.record s with
      | none =>
          have hstep : recordItem (σ, n) (some s) = (σ, n) := by simp [recordItem, hrecord]
          rw [hstep]
          refine ⟨Recorded.refl σ _ ?_, le_rfl, fun _ => rfl⟩
          intro t ht htype hrec
          obtain rfl : t = s := by simpa using ht
          by_contra hnone
          have hnew : σ.record t =
              some { σ with dataShreds := Function.update σ.dataShreds t.index (some t) } :=
            record_eq_some_iff.mpr ⟨hrec, Or.inr ⟨htype, by simpa using hnone, rfl⟩⟩
          rw [hrecord] at hnew
          contradiction
      | some σ' =>
          have hstep : recordItem (σ, n) (some s) = (σ', n + 1) := by simp [recordItem, hrecord]
          rw [hstep]
          refine ⟨?_, Nat.le_succ n, fun h => absurd h (Nat.succ_ne_self n)⟩
          rcases record_eq_some_iff.mp hrecord with ⟨hrec, ⟨htype, rfl⟩ | ⟨htype, hnone, rfl⟩⟩
          · refine Recorded.refl _ _ ?_
            intro t ht htype'
            obtain rfl : t = s := by simpa using ht
            rw [htype] at htype'
            contradiction
          · refine ⟨rfl, rfl, rfl, ?_, ?_, ?_⟩
            · intro i t ht
              by_cases hi : i = s.index
              · subst hi
                rw [hnone] at ht
                contradiction
              · simpa [hi] using ht
            · intro i t ht
              by_cases hi : i = s.index
              · subst hi
                obtain rfl : s = t := by simpa using ht
                exact Or.inr ⟨by simp, htype, rfl⟩
              · exact Or.inl (by simpa [hi] using ht)
            · intro t ht htype' hrec'
              obtain rfl : t = s := by simpa using ht
              simp

/-- The results are recorded, and none is counted only if the slot stays the same. -/
theorem foldl_recordItem_spec (σ : SlotState) (n : Nat) (items : List (Option Shred)) :
    Recorded σ (items.foldl recordItem (σ, n)).1 items ∧
      n ≤ (items.foldl recordItem (σ, n)).2 ∧
      ((items.foldl recordItem (σ, n)).2 = n → (items.foldl recordItem (σ, n)).1 = σ) := by
  induction items generalizing σ n with
  | nil => exact ⟨Recorded.refl σ _ (by simp), le_rfl, fun _ => rfl⟩
  | cons item items ih =>
      have hhead := recordItem_spec σ n item
      have htail := ih (recordItem (σ, n) item).1 (recordItem (σ, n) item).2
      rw [Prod.mk.eta] at htail
      rw [List.foldl_cons]
      refine ⟨hhead.1.trans htail.1, hhead.2.1.trans htail.2.1, ?_⟩
      intro hcount
      have hsame : (recordItem (σ, n) item).2 = n := by
        have := hhead.2.1
        have := htail.2.1
        omega
      exact (htail.2.2 (hcount.trans hsame.symm)).trans (hhead.2.2 hsame)

/-- The shred would be recorded: its set is not flagged, and if it is a data shred, its position
is free. -/
def IsNew (σ : SlotState) (s : Shred) : Prop :=
  σ.recovered s.fecSetIndex = false ∧ (s.shredType = .data → σ.dataShreds s.index = none)

/-- A shred that is recorded is new. -/
theorem IsNew.of_record {σ σ' : SlotState} {s : Shred} (h : σ.record s = some σ') : σ.IsNew s := by
  rcases record_eq_some_iff.mp h with ⟨hrec, ⟨htype, _⟩ | ⟨_, hfree, _⟩⟩
  · refine ⟨hrec, fun hdata => ?_⟩
    rw [htype] at hdata
    contradiction
  · exact ⟨hrec, fun _ => hfree⟩

/-- Something is counted only if one of the results is a new shred. -/
theorem exists_of_foldl_recordItem {σ : SlotState} {n : Nat} {items : List (Option Shred)}
    (h : n < (items.foldl recordItem (σ, n)).2) : ∃ s, some s ∈ items ∧ σ.IsNew s := by
  induction items with
  | nil => exact absurd h (lt_irrefl n)
  | cons item items ih =>
      by_cases hnew : ∃ s σ', item = some s ∧ σ.record s = some σ'
      · rcases hnew with ⟨s, σ', rfl, hrecord⟩
        exact ⟨s, List.mem_cons_self, IsNew.of_record hrecord⟩
      · have hsame : recordItem (σ, n) item = (σ, n) := by
          cases item with
          | none => rfl
          | some s =>
              have hnone : σ.record s = none :=
                Option.eq_none_iff_forall_ne_some.mpr fun σ' h' => hnew ⟨s, σ', rfl, h'⟩
              simp [recordItem, hnone]
        rw [List.foldl_cons, hsame] at h
        rcases ih h with ⟨s, hs, hfresh⟩
        exact ⟨s, List.mem_cons_of_mem _ hs, hfresh⟩

/-- The attempt calls the ledger's recovery. -/
def callsRecover (order : IterOrder) (σ : SlotState) (f : FecSetIndex) : Bool :=
  needsRecovery (getDataShredInfo (order.iter (σ.held f))) (σ.held f).length

/-- The answer of the ledger's recovery on the shreds held for set `f`. -/
def recoverAnswer (ledger : Ledger) (order : IterOrder) (σ : SlotState) (f : FecSetIndex) :
    Option (List (Option Shred)) :=
  ledger.recover (sortForRecovery (order.iter (σ.held f)))

/-- A recovery attempt either leaves the set as it is, or records an answer of the ledger
and, if that brought anything new, finishes the set. -/
theorem recover_cases (ledger : Ledger) (order : IterOrder) (σ : SlotState) (f : FecSetIndex) :
    (σ.recover ledger order f = (σ.touch f, 0) ∧
        (σ.callsRecover order f = false ∨ σ.recoverAnswer ledger order f = none)) ∨
      ∃ items τ n, σ.callsRecover order f = true ∧
        σ.recoverAnswer ledger order f = some items ∧ Recorded (σ.touch f) τ items ∧
        ((n = 0 ∧ τ = σ.touch f ∧ σ.recover ledger order f = (σ.touch f, 0)) ∨
          (0 < n ∧ (∃ s, some s ∈ items ∧ σ.IsNew s) ∧
            σ.recover ledger order f = (τ.finish f, n))) := by
  cases hcalls : σ.callsRecover order f with
  | false =>
      refine Or.inl ⟨?_, Or.inl rfl⟩
      unfold callsRecover at hcalls
      simp [recover, hcalls]
  | true =>
      unfold callsRecover at hcalls
      cases hanswer : σ.recoverAnswer ledger order f with
      | none =>
          refine Or.inl ⟨?_, Or.inr rfl⟩
          unfold recoverAnswer at hanswer
          simp [recover, hcalls, hanswer]
      | some items =>
          unfold recoverAnswer at hanswer
          have hspec := foldl_recordItem_spec (σ.touch f) 0 items
          refine Or.inr ⟨items, _, (items.foldl recordItem (σ.touch f, 0)).2, rfl, rfl, hspec.1, ?_⟩
          rcases Nat.eq_zero_or_pos (items.foldl recordItem (σ.touch f, 0)).2 with hzero | hpos
          · refine Or.inl ⟨hzero, hspec.2.2 hzero, ?_⟩
            have hsame : items.foldl recordItem (σ.touch f, 0) = (σ.touch f, 0) :=
              Prod.ext (hspec.2.2 hzero) hzero
            simp [recover, absorb, hcalls, hanswer, hsame]
          · have hnew : ∃ s, some s ∈ items ∧ (σ.touch f).IsNew s := exists_of_foldl_recordItem hpos
            exact Or.inr ⟨hpos, hnew, by simp [recover, absorb, hcalls, hanswer, hpos]⟩

/-- What every recovery attempt on set `f` guarantees. -/
structure RecoverSpec (ledger : Ledger) (order : IterOrder) (σ : SlotState) (f : FecSetIndex)
    (σ' : SlotState) (n : Nat) : Prop where
  deshredded_eq : σ'.deshredded = σ.deshredded
  recovered_eq : σ'.recovered = if 0 < n then Function.update σ.recovered f true else σ.recovered
  fecSets_eq : σ'.fecSets =
    Function.update σ.fecSets f (some (if 0 < n then [] else σ.held f))
  mono : ∀ i s, σ.dataShreds i = some s → σ'.dataShreds i = some s
  source : ∀ i s, σ'.dataShreds i = some s → σ.dataShreds i = some s ∨
    ∃ items, σ.callsRecover order f = true ∧ σ.recoverAnswer ledger order f = some items ∧
      some s ∈ items ∧ s.shredType = .data ∧ s.index = i ∧ 0 < n
  counted : 0 < n → ∃ items, σ.callsRecover order f = true ∧
    σ.recoverAnswer ledger order f = some items ∧ ∃ s, some s ∈ items ∧ σ.IsNew s
  covers : ∀ items, σ.callsRecover order f = true →
    σ.recoverAnswer ledger order f = some items →
    ∀ s, some s ∈ items → s.shredType = .data → σ.recovered s.fecSetIndex = false →
      (σ'.dataShreds s.index).isSome

/-- What a recovery attempt does to a slot, and what it counts. -/
theorem recover_spec (ledger : Ledger) (order : IterOrder) (σ : SlotState) (f : FecSetIndex) :
    RecoverSpec ledger order σ f (σ.recover ledger order f).1 (σ.recover ledger order f).2 := by
  rcases recover_cases ledger order σ f with
    ⟨heq, hno⟩ | ⟨items, τ, n, hcalls, hanswer, hrec, ⟨hzero, hτ, heq⟩ | ⟨hpos, hitem, heq⟩⟩
  · rw [heq]
    refine ⟨rfl, rfl, rfl, fun _ _ h => h, fun _ _ h => Or.inl h,
      fun h => absurd h (lt_irrefl 0), ?_⟩
    intro items hcalls hanswer
    rcases hno with hno | hno
    · rw [hcalls] at hno
      contradiction
    · rw [hanswer] at hno
      contradiction
  · rw [heq]
    refine ⟨rfl, rfl, rfl, fun _ _ h => h, fun _ _ h => Or.inl h,
      fun h => absurd h (lt_irrefl 0), ?_⟩
    intro items' _ hanswer' s hmem htype hnot
    rw [hanswer, Option.some.injEq] at hanswer'
    subst hanswer'
    rw [hτ] at hrec
    exact hrec.covers s hmem htype hnot
  · rw [heq]
    refine ⟨hrec.deshredded_eq, ?_, ?_, hrec.mono, ?_, fun _ => ⟨items, hcalls, hanswer, hitem⟩,
      ?_⟩
    · simp only [finish, hrec.recovered_eq, touch, if_pos hpos]
    · simp only [finish, hrec.fecSets_eq, touch, if_pos hpos, Function.update_idem]
    · intro i s hs
      rcases hrec.source i s hs with h | ⟨hmem, htype, hindex⟩
      · exact Or.inl h
      · exact Or.inr ⟨items, hcalls, hanswer, hmem, htype, hindex, hpos⟩
    · intro items' _ hanswer' s hmem htype hnot
      rw [hanswer, Option.some.injEq] at hanswer'
      subst hanswer'
      exact hrec.covers s hmem htype hnot

/-- A deshred attempt changes nothing and emits nothing, or it found a segment, decoded it,
marked it and emitted it. -/
theorem deshred_cases (ledger : Ledger) (slot : Slot) (σ : SlotState) (f : FecSetIndex) :
    σ.deshred ledger slot f = (σ, none) ∨
      ∃ a e u entries payload, IsSegment σ.line maxDataShredsPerSlot f a e u ∧
        σ.decode ledger a e = some (payload, entries) ∧
        σ.deshred ledger slot f = (σ.mark a e, some ⟨slot, a, e, u, entries, payload⟩) := by
  unfold deshred
  split
  · exact Or.inl rfl
  · rename_i a e u hsegment
    split
    · exact Or.inl rfl
    · rename_i payload entries hdecode
      exact Or.inr ⟨a, e, u, entries, payload,
        (segmentAt_eq_some_iff _ _ _ _ _).mp hsegment, hdecode, rfl⟩

end SlotState

end ShredstreamProxy
