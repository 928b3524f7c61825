import ShredstreamProxy.Slot.State

/-!
# The representation invariant of a slot

The vectors of a tracker and the erasure sets beside it are updated in different
places.  The invariant relates them: stored shreds are data shreds at their own
position, deshredded positions are known and run on to a complete shred, and every
data shred of an erasure set is stored.

Main results:

- Theorem {lit}`SlotState.Inv.ingest`: accepting an admitted shred keeps the invariant.
- Theorem {lit}`SlotState.Inv.recover`: a recovery attempt keeps it.
- Theorem {lit}`SlotState.Inv.deshred`: a deshred attempt keeps it.
- Theorem {lit}`SlotState.HoldsOnce.ingest`: when the sets keep holding each position once.
-/

namespace ShredstreamProxy

open Segment

namespace SlotState

/-! ## Ranges of positions -/

theorem mem_shredsIn {σ : SlotState} {a e : Nat} {s : Shred} :
    s ∈ σ.shredsIn a e ↔ ∃ j, a ≤ j ∧ j ≤ e ∧ σ.dataShreds j = some s := by
  simp only [shredsIn, List.mem_filterMap, List.mem_range'_1]
  constructor
  · rintro ⟨j, hj, hs⟩
    exact ⟨j, hj.1, by omega, hs⟩
  · rintro ⟨j, h₁, h₂, hs⟩
    exact ⟨j, by omega, hs⟩

/-- The shreds of a filled range, position by position. -/
theorem forall₂_shredsIn {σ : SlotState} {R : Nat → Shred → Prop} {a e : Nat}
    (h : ∀ j, a ≤ j → j ≤ e → ∃ s, σ.dataShreds j = some s ∧ R j s) :
    List.Forall₂ R (List.range' a (e + 1 - a)) (σ.shredsIn a e) := by
  have hloop : ∀ l : List Nat, (∀ j ∈ l, ∃ s, σ.dataShreds j = some s ∧ R j s) →
      List.Forall₂ R l (l.filterMap σ.dataShreds) := by
    intro l
    induction l with
    | nil => exact fun _ => List.Forall₂.nil
    | cons j l ih =>
        intro hl
        rcases hl j List.mem_cons_self with ⟨s, hs, hR⟩
        rw [List.filterMap_cons, hs]
        exact List.Forall₂.cons hR (ih fun k hk => hl k (List.mem_cons_of_mem j hk))
  refine hloop _ fun j hj => ?_
  rw [List.mem_range'_1] at hj
  exact h j hj.1 (by omega)

@[simp]
theorem mark_dataShreds (σ : SlotState) (a e : Nat) : (σ.mark a e).dataShreds = σ.dataShreds :=
  rfl

@[simp]
theorem mark_fecSets (σ : SlotState) (a e : Nat) : (σ.mark a e).fecSets = σ.fecSets :=
  rfl

/-- Marking a segment flags its positions. -/
@[simp]
theorem mark_deshredded_iff {σ : SlotState} {a e j : Nat} :
    (σ.mark a e).deshredded j = true ↔ σ.deshredded j = true ∨ a ≤ j ∧ j ≤ e := by
  simp [mark]

/-- Marking a segment flags the sets of its shreds. -/
@[simp]
theorem mark_recovered_iff {σ : SlotState} {a e : Nat} {f : FecSetIndex} :
    (σ.mark a e).recovered f = true ↔
      σ.recovered f = true ∨
        ∃ j s, a ≤ j ∧ j ≤ e ∧ σ.dataShreds j = some s ∧ s.fecSetIndex = f := by
  simp only [mark, Bool.or_eq_true, List.any_eq_true, mem_shredsIn, decide_eq_true_eq]
  constructor
  · rintro (h | ⟨s, ⟨j, h₁, h₂, hs⟩, hf⟩)
    · exact Or.inl h
    · exact Or.inr ⟨j, s, h₁, h₂, hs, hf⟩
  · rintro (h | ⟨j, s, h₁, h₂, hs, hf⟩)
    · exact Or.inl h
    · exact Or.inr ⟨s, ⟨j, h₁, h₂, hs⟩, hf⟩

/-! ## The cells of a slot -/

/-- An inner position holds a shred that does not complete a block of data. -/
theorem line_inner {σ : SlotState} {i : Nat} :
    σ.line.Inner i ↔ ∃ s, σ.dataShreds i = some s ∧ s.completes = false := by
  unfold Line.Inner
  cases h : σ.dataShreds i <;> simp [line, h]

/-- A closing position holds a shred that completes a block of data. -/
theorem line_closing {σ : SlotState} {i : Nat} :
    σ.line.Closing i ↔ ∃ s, σ.dataShreds i = some s ∧ s.completes = true := by
  unfold Line.Closing
  cases h : σ.dataShreds i <;> simp [line, h]

/-- Every position of a segment holds a shred. -/
theorem exists_of_isSegment {σ : SlotState} {n i a e j : Nat} {u : Bool}
    (h : IsSegment σ.line n i a e u) (h₁ : a ≤ j) (h₂ : j ≤ e) :
    ∃ s, σ.dataShreds j = some s := by
  rcases Nat.lt_or_eq_of_le h₂ with h₂ | rfl
  · rcases line_inner.mp (h.inner j h₁ h₂) with ⟨s, hs, _⟩
    exact ⟨s, hs⟩
  · rcases line_closing.mp h.closing with ⟨s, hs, _⟩
    exact ⟨s, hs⟩

/-! ## The invariant -/

/-- How the parts of a slot's state belong together. -/
structure Inv (slot : Slot) (σ : SlotState) : Prop where
  stored : ∀ i s, σ.dataShreds i = some s →
    s.shredType = .data ∧ s.slot = slot ∧ s.index = i ∧ s.Admitted
  deshredded : ∀ i, σ.deshredded i = true → ∃ s, σ.dataShreds i = some s ∧
    σ.recovered s.fecSetIndex = true ∧
      (s.completes = false → i + 1 < maxDataShredsPerSlot ∧ σ.deshredded (i + 1) = true)
  fecSet_lt : ∀ f l, σ.fecSets f = some l → f < maxDataShredsPerSlot
  held : ∀ f s, s ∈ σ.held f → s.fecSetIndex = f ∧ s.slot = slot ∧
    (s.shredType = .data → σ.dataShreds s.index = some s)

theorem inv_initial (slot : Slot) : Inv slot initial := by
  constructor <;> simp [initial, SlotState.held]

/-! ## What the operations store and hold -/

section Steps

variable {ledger : Ledger} {order : IterOrder} {σ σ' : SlotState} {s t : Shred}

/-- Accepting a shred fills at most its own position. -/
theorem stored_of_ingest (h : σ.ingest ledger s = some σ') {i : Nat}
    (ht : σ'.dataShreds i = some t) :
    σ.dataShreds i = some t ∨ t = s ∧ i = s.index ∧ s.shredType = .data := by
  rcases ingest_eq_some_iff.mp h with ⟨_, _, _, rfl⟩
  simp only at ht
  split at ht
  · rename_i htype
    by_cases hi : i = s.index
    · subst hi
      obtain rfl : s = t := by simpa using ht
      exact Or.inr ⟨rfl, rfl, htype⟩
    · exact Or.inl (by simpa [hi] using ht)
  · exact Or.inl ht

/-- Accepting a shred keeps what is stored. -/
theorem stored_mono_ingest (h : σ.ingest ledger s = some σ') {i : Nat}
    (ht : σ.dataShreds i = some t) : σ'.dataShreds i = some t := by
  rcases ingest_eq_some_iff.mp h with ⟨_, _, hfree, rfl⟩
  simp only
  split
  · rename_i htype
    have hne : i ≠ s.index := by
      rintro rfl
      rw [hfree htype] at ht
      contradiction
    simpa [hne] using ht
  · exact ht

/-- The sets after a shred was accepted. -/
theorem held_ingest (h : σ.ingest ledger s = some σ') (f : FecSetIndex) :
    σ'.held f =
      if f = s.fecSetIndex then insertComparable ledger (σ.held f) s else σ.held f := by
  rcases ingest_eq_some_iff.mp h with ⟨_, _, _, rfl⟩
  simp only [SlotState.held]
  by_cases hf : f = s.fecSetIndex
  · subst hf
    rw [if_pos rfl, Function.update_self, Option.getD_some]
  · rw [if_neg hf, Function.update_of_ne hf]

/-- Accepting a shred adds at most the shred itself to its set. -/
theorem mem_held_of_ingest (h : σ.ingest ledger s = some σ') {f : FecSetIndex}
    (ht : t ∈ σ'.held f) : t ∈ σ.held f ∨ t = s ∧ f = s.fecSetIndex := by
  rw [held_ingest h] at ht
  split at ht
  · rename_i hf
    exact (mem_insertComparable ht).imp_right fun heq => ⟨heq, hf⟩
  · exact Or.inl ht

/-- The sets after a recovery attempt. -/
theorem held_recover (ledger : Ledger) (order : IterOrder) (σ : SlotState) (f g : FecSetIndex) :
    (σ.recover ledger order f).1.held g =
      if g = f ∧ 0 < (σ.recover ledger order f).2 then [] else σ.held g := by
  simp only [SlotState.held, (recover_spec ledger order σ f).fecSets_eq]
  by_cases hg : g = f
  · subst hg
    by_cases hpos : 0 < (σ.recover ledger order g).2 <;> simp [hpos]
  · rw [Function.update_of_ne hg, if_neg fun h => hg h.1]

/-- A recovery attempt adds nothing to any set. -/
theorem mem_held_of_recover {f g : FecSetIndex} (ht : t ∈ (σ.recover ledger order f).1.held g) :
    t ∈ σ.held g := by
  rw [held_recover] at ht
  split at ht
  · exact absurd ht List.not_mem_nil
  · exact ht

/-- A deshred attempt changes no set. -/
theorem held_deshred (ledger : Ledger) (slot : Slot) (σ : SlotState) (f g : FecSetIndex) :
    (σ.deshred ledger slot f).1.held g = σ.held g := by
  rcases deshred_cases ledger slot σ f with heq | ⟨a, e, u, _, _, _, _, heq⟩
  · rw [heq]
  · rw [heq]
    rfl

/-- The members of the input of recovery are the shreds held for the set. -/
theorem mem_sortForRecovery {f : FecSetIndex} :
    t ∈ sortForRecovery (order.iter (σ.held f)) ↔ t ∈ σ.held f := by
  rw [sortForRecovery, List.mem_insertionSort]
  exact (order.perm _).mem_iff

end Steps

namespace Inv

variable {ledger : Ledger} {order : IterOrder} {slot : Slot} {σ σ' : SlotState}

/-- Taking an admitted shred of the slot keeps the invariant. -/
theorem ingest (h : Inv slot σ) {s : Shred} (hadm : s.Admitted) (hslot : s.slot = slot)
    (hs : σ.ingest ledger s = some σ') : Inv slot σ' := by
  have hold := ingest_eq_some_iff.mp hs
  constructor
  · intro i t ht
    rcases stored_of_ingest hs ht with ht | ⟨rfl, rfl, htype⟩
    · exact h.stored i t ht
    · exact ⟨htype, hslot, rfl, hadm⟩
  · intro i hi
    rw [hold.2.2.2] at hi
    rcases h.deshredded i hi with ⟨t, ht, hrest⟩
    refine ⟨t, stored_mono_ingest hs ht, ?_⟩
    rw [hold.2.2.2]
    exact hrest
  · intro f l hl
    rw [hold.2.2.2] at hl
    by_cases hf : f = s.fecSetIndex
    · rw [hf]
      exact hadm.fecSetIndex_lt
    · exact h.fecSet_lt f l (by simpa [hf] using hl)
  · intro f t ht
    rcases mem_held_of_ingest hs ht with ht | ⟨rfl, rfl⟩
    · have hheld := h.held f t ht
      exact ⟨hheld.1, hheld.2.1, fun htype => stored_mono_ingest hs (hheld.2.2 htype)⟩
    · refine ⟨rfl, hslot, ?_⟩
      intro htype
      rw [hold.2.2.2]
      simp [htype]

/-- The answers of recovery are sanitized shreds of the set it was called for. -/
theorem answer_admitted (h : Inv slot σ) {f : FecSetIndex} {items : List (Option Shred)}
    (hcalls : σ.callsRecover order f = true)
    (hanswer : σ.recoverAnswer ledger order f = some items) {s : Shred} (hs : some s ∈ items) :
    s.Admitted ∧ s.slot = slot ∧ s.fecSetIndex = f := by
  refine ledger.recover_admitted (l := sortForRecovery (order.iter (σ.held f))) ?_ ?_ hanswer hs
  · intro hnil
    have hempty : σ.held f = [] := by
      apply List.eq_nil_iff_forall_not_mem.mpr
      intro t ht
      have hmem : t ∈ sortForRecovery (order.iter (σ.held f)) := mem_sortForRecovery.mpr ht
      rw [hnil] at hmem
      exact absurd hmem List.not_mem_nil
    have hiter : order.iter [] = [] := (order.perm []).eq_nil
    simp [callsRecover, hempty, hiter, needsRecovery, getDataShredInfo] at hcalls
  · intro t ht
    have hold := h.held f t (mem_sortForRecovery.mp ht)
    exact ⟨hold.2.1, hold.1⟩

/-- A recovery attempt keeps the invariant. -/
theorem recover (h : Inv slot σ) {f : FecSetIndex} (hf : f < maxDataShredsPerSlot) :
    Inv slot (σ.recover ledger order f).1 := by
  have hspec := recover_spec ledger order σ f
  constructor
  · intro i s hs
    rcases hspec.source i s hs with hs | ⟨items, hcalls, hanswer, hmem, htype, hindex, _⟩
    · exact h.stored i s hs
    · have hadm := h.answer_admitted hcalls hanswer hmem
      exact ⟨htype, hadm.2.1, hindex, hadm.1⟩
  · intro i hi
    rw [hspec.deshredded_eq] at hi
    rcases h.deshredded i hi with ⟨s, hs, hrec, hnext⟩
    refine ⟨s, hspec.mono i s hs, ?_, ?_⟩
    · rw [hspec.recovered_eq]
      split
      · by_cases hg : s.fecSetIndex = f <;> simp [hg, hrec]
      · exact hrec
    · rw [hspec.deshredded_eq]
      exact hnext
  · intro g l hl
    rw [hspec.fecSets_eq] at hl
    by_cases hg : g = f
    · rw [hg]
      exact hf
    · exact h.fecSet_lt g l (by simpa [hg] using hl)
  · intro g s hs
    have hold := h.held g s (mem_held_of_recover hs)
    exact ⟨hold.1, hold.2.1, fun htype => hspec.mono _ _ (hold.2.2 htype)⟩

/-- Marking a segment keeps the invariant. -/
theorem mark (h : Inv slot σ) {f a e : Nat} {u : Bool}
    (hseg : IsSegment σ.line maxDataShredsPerSlot f a e u) : Inv slot (σ.mark a e) := by
  constructor
  · exact h.stored
  · intro i hi
    rw [mark_deshredded_iff] at hi
    rcases hi with hi | ⟨h₁, h₂⟩
    · rcases h.deshredded i hi with ⟨s, hs, hrec, hnext⟩
      exact ⟨s, hs, by simp [hrec],
        fun hc => ⟨(hnext hc).1, by simp [(hnext hc).2]⟩⟩
    · rcases exists_of_isSegment hseg h₁ h₂ with ⟨s, hs⟩
      refine ⟨s, hs, ?_, ?_⟩
      · rw [mark_recovered_iff]
        exact Or.inr ⟨i, s, h₁, h₂, hs, rfl⟩
      · intro hc
        have hlt : i < e := by
          rcases Nat.lt_or_eq_of_le h₂ with h₂ | rfl
          · exact h₂
          · rcases line_closing.mp hseg.closing with ⟨t, ht, htc⟩
            rw [hs, Option.some.injEq] at ht
            subst ht
            rw [hc] at htc
            contradiction
        refine ⟨lt_of_le_of_lt hlt hseg.end_lt, ?_⟩
        rw [mark_deshredded_iff]
        exact Or.inr ⟨by omega, hlt⟩
  · exact h.fecSet_lt
  · exact h.held

/-- A deshred attempt keeps the invariant. -/
theorem deshred (h : Inv slot σ) (f : FecSetIndex) :
    Inv slot (σ.deshred ledger slot f).1 := by
  rcases deshred_cases ledger slot σ f with heq | ⟨a, e, u, entries, payload, hseg, _, heq⟩
  · rw [heq]
    exact h
  · rw [heq]
    exact h.mark hseg

end Inv

/-! ## Shreds of one kind -/

/-- Every shred that the slot stores or holds satisfies a given predicate. -/
structure Within (G : Shred → Prop) (σ : SlotState) : Prop where
  stored : ∀ i s, σ.dataShreds i = some s → G s
  held : ∀ f, ∀ s ∈ σ.held f, G s

namespace Within

variable {G : Shred → Prop} {ledger : Ledger} {slot : Slot} {σ σ' : SlotState}

theorem initial (G : Shred → Prop) : Within G SlotState.initial :=
  ⟨fun _ _ h => absurd h (by simp [SlotState.initial]), fun _ _ h => absurd h List.not_mem_nil⟩

/-- Taking a shred of the kind keeps to the kind. -/
theorem ingest (h : Within G σ) {s : Shred} (hs : G s) (hin : σ.ingest ledger s = some σ') :
    Within G σ' := by
  constructor
  · intro i t ht
    rcases stored_of_ingest hin ht with ht | ⟨rfl, _⟩
    · exact h.stored i t ht
    · exact hs
  · intro f t ht
    rcases mem_held_of_ingest hin ht with ht | ⟨rfl, _⟩
    · exact h.held f t ht
    · exact hs

/-- Recovery keeps to the kind if its answers do. -/
theorem recover (h : Within G σ) {order : IterOrder} {f : FecSetIndex}
    (hanswer : ∀ items s, σ.recoverAnswer ledger order f = some items → some s ∈ items → G s) :
    Within G (σ.recover ledger order f).1 := by
  constructor
  · intro i s hs
    rcases (recover_spec ledger order σ f).source i s hs with hs | ⟨items, _, ha, hmem, _⟩
    · exact h.stored i s hs
    · exact hanswer items s ha hmem
  · exact fun g s hs => h.held g s (mem_held_of_recover hs)

/-- A deshred attempt keeps to the kind. -/
theorem deshred (h : Within G σ) (f : FecSetIndex) : Within G (σ.deshred ledger slot f).1 := by
  constructor
  · intro i s hs
    rcases deshred_cases ledger slot σ f with heq | ⟨a, e, u, _, _, _, _, heq⟩
    · exact h.stored i s (by simpa [heq] using hs)
    · exact h.stored i s (by simpa [heq] using hs)
  · intro g s hs
    rw [held_deshred] at hs
    exact h.held g s hs

end Within

/-! ## Positions -/

/-- Every bucket of the slot holds each position at most once. -/
def HoldsOnce (σ : SlotState) : Prop :=
  ∀ f, ((σ.held f).map Shred.position).Nodup

namespace HoldsOnce

variable {ledger : Ledger} {slot : Slot} {σ σ' : SlotState} {s : Shred}

theorem initial : HoldsOnce SlotState.initial :=
  fun _ => List.nodup_nil

/-- Accepting a shred keeps positions held once, if a coding shred compares equal to the held ones
of its position. -/
theorem ingest (h : HoldsOnce σ) (hinv : σ.Inv slot)
    (hcode : s.shredType = .code → ∀ t ∈ σ.held s.fecSetIndex, t.position = s.position →
      comparableEq ledger s t = true)
    (hin : σ.ingest ledger s = some σ') : HoldsOnce σ' := by
  intro f
  have hfree := (ingest_eq_some_iff.mp hin).2.2.1
  rw [held_ingest hin]
  split
  · rename_i hf
    subst hf
    unfold insertComparable
    split
    · exact h _
    · rename_i hnew
      rw [List.map_append, List.map_singleton]
      refine List.nodup_append.mpr ⟨h _, List.nodup_singleton _, ?_⟩
      intro p hp q hq hpq
      obtain rfl := List.mem_singleton.mp hq
      subst hpq
      rcases List.mem_map.mp hp with ⟨t, ht, hpos⟩
      cases htype : s.shredType with
      | data =>
          have hold := (hinv.held _ t ht).2.2 ((congrArg Prod.fst hpos).trans htype)
          have hindex : t.index = s.index := congrArg Prod.snd hpos
          rw [hindex, hfree htype] at hold
          contradiction
      | code => exact hnew (List.any_eq_true.mpr ⟨t, ht, hcode htype t ht hpos⟩)
  · exact h f

/-- A recovery attempt holds no position twice. -/
theorem recover (h : HoldsOnce σ) (order : IterOrder) (f : FecSetIndex) :
    (σ.recover ledger order f).1.HoldsOnce := by
  intro g
  rw [held_recover]
  split
  · exact List.nodup_nil
  · exact h g

/-- A deshred attempt holds no position twice. -/
theorem deshred (h : HoldsOnce σ) (f : FecSetIndex) :
    (σ.deshred ledger slot f).1.HoldsOnce := by
  intro g
  rw [held_deshred]
  exact h g

end HoldsOnce

end SlotState

end ShredstreamProxy
