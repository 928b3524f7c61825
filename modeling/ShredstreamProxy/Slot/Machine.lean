import ShredstreamProxy.Slot.Invariant

/-!
# The family of slots

A call works on all slots at once: it shares the highest slot seen, the work list and
the list of emitted items between them.  This module gives the total machine for a
whole call and proves that, seen from one slot, it is the one-slot call on those shreds
of the batch that were not stale when their turn came.

Main results:

- Theorem {lit}`Machine.process_slot`: one slot of a call is a one-slot call.
- Theorem {lit}`Machine.process_emitted`: so are the items it emits for that slot.
- Theorem {lit}`Feed.live_eq_nil_of_dead`: a slot below the threshold takes no shred.
-/

namespace ShredstreamProxy

open KeyedFold

/-! ## One call on one slot -/

namespace SlotState

/-- Offer a shred to a slot and remember the erasure set it was accepted for. -/
def offer (ledger : Ledger) (acc : SlotState × List FecSetIndex) (s : Shred) :
    SlotState × List FecSetIndex :=
  match acc.1.ingest ledger s with
  | none => acc
  | some σ => (σ, acc.2 ++ [s.fecSetIndex])

/-- The slot and its work list after a list of shreds was offered. -/
def feed (ledger : Ledger) (σ : SlotState) (shreds : List Shred) :
    SlotState × List FecSetIndex :=
  shreds.foldl (offer ledger) (σ, [])

/-- The erasure sets a call iterates over, in order. -/
def touched (ledger : Ledger) (σ : SlotState) (shreds : List Shred) : List FecSetIndex :=
  sortDedup (· ≤ ·) (σ.feed ledger shreds).2

/-- The slot after the ingest and recovery phases of a call. -/
def recoverAll (ledger : Ledger) (order : IterOrder) (σ : SlotState) (shreds : List Shred) :
    SlotState × List Nat :=
  run (recover ledger order) (σ.feed ledger shreds).1 (σ.touched ledger shreds)

/-- The slot after a whole call, and the outcome of every deshred attempt. -/
def deshredAll (ledger : Ledger) (order : IterOrder) (slot : Slot) (σ : SlotState)
    (shreds : List Shred) : SlotState × List (Option Deshredded) :=
  run (deshred ledger slot) (σ.recoverAll ledger order shreds).1 (σ.touched ledger shreds)

/-- One call on one slot. -/
def process (ledger : Ledger) (order : IterOrder) (slot : Slot) (σ : SlotState)
    (shreds : List Shred) : SlotState × List Deshredded :=
  ((σ.deshredAll ledger order slot shreds).1,
    (σ.deshredAll ledger order slot shreds).2.filterMap id)

@[simp]
theorem process_nil (ledger : Ledger) (order : IterOrder) (slot : Slot) (σ : SlotState) :
    σ.process ledger order slot [] = (σ, []) :=
  rfl

end SlotState

/-! ## One call on all slots -/

/-- The slots and the highest slot seen. -/
structure Machine where
  slots : Slot → SlotState
  highest : Slot

/-- The machine inside the ingest loop. -/
structure Feed where
  slots : Slot → SlotState
  highest : Slot
  work : List (Slot × FecSetIndex)

/-- The result of a call before pruning. -/
structure Outcome where
  machine : Machine
  work : List (Slot × FecSetIndex)
  emitted : List Deshredded
  count : Nat

namespace Feed

/-- Offer one shred to the slot it belongs to, unless that slot is too old. -/
def ingest (ledger : Ledger) (m : Feed) (s : Shred) : Feed :=
  if m.highest - slotLookback > s.slot then m
  else
    match (m.slots s.slot).ingest ledger s with
    | none => m
    | some σ =>
        { slots := Function.update m.slots s.slot σ
          highest := max m.highest s.slot
          work := m.work ++ [(s.slot, s.fecSetIndex)] }

/-- The shreds that are not stale when their turn comes. -/
def live (ledger : Ledger) (m : Feed) : List Shred → List Shred
  | [] => []
  | s :: l =>
      if m.highest - slotLookback > s.slot then live ledger m l
      else s :: live ledger (m.ingest ledger s) l

variable {ledger : Ledger}

theorem highest_le_ingest (m : Feed) (s : Shred) : m.highest ≤ (m.ingest ledger s).highest := by
  unfold ingest
  split
  · exact le_rfl
  · split
    · exact le_rfl
    · exact le_max_left _ _

theorem highest_le_foldl (m : Feed) (l : List Shred) :
    m.highest ≤ (l.foldl (ingest ledger) m).highest := by
  induction l generalizing m with
  | nil => exact le_rfl
  | cons s l ih => exact (highest_le_ingest m s).trans (ih _)

/-- The work list names the slot and set of accepted shreds. -/
theorem exists_of_mem_work {m : Feed} {l : List Shred} {w : Slot × FecSetIndex}
    (h : w ∈ (l.foldl (ingest ledger) m).work) :
    w ∈ m.work ∨ ∃ s ∈ l, (s.slot, s.fecSetIndex) = w := by
  induction l generalizing m with
  | nil => exact Or.inl h
  | cons s l ih =>
      rcases ih h with hw | ⟨t, ht, hw⟩
      · unfold ingest at hw
        split at hw
        · exact Or.inl hw
        · split at hw
          · exact Or.inl hw
          · rcases List.mem_append.mp hw with hw | hw
            · exact Or.inl hw
            · exact Or.inr ⟨s, List.mem_cons_self, (List.mem_singleton.mp hw).symm⟩
      · exact Or.inr ⟨t, List.mem_cons_of_mem s ht, hw⟩

/-- The shreds that are not stale at their turn come in the order of the list. -/
theorem live_sublist (m : Feed) (l : List Shred) : (m.live ledger l).Sublist l := by
  induction l generalizing m with
  | nil => exact List.Sublist.refl _
  | cons s l ih =>
      unfold live
      split
      · exact (ih m).cons s
      · exact (ih _).cons_cons s

/-- A slot below the threshold takes no shred. -/
theorem live_eq_nil_of_dead {m : Feed} {slot : Slot} (h : slot < m.highest - slotLookback)
    (l : List Shred) : (m.live ledger l).filter (fun s => s.slot = slot) = [] := by
  induction l generalizing m with
  | nil => rfl
  | cons s l ih =>
      unfold live
      split
      · exact ih h
      · rename_i hfresh
        have hne : s.slot ≠ slot := by
          rintro rfl
          exact hfresh h
        have hnext : slot < (m.ingest ledger s).highest - slotLookback :=
          h.trans_le (Nat.sub_le_sub_right (highest_le_ingest m s) _)
        simp [hne, ih hnext]

/-- When no shred of a slot is stale at its turn, all of them are offered. -/
theorem live_filter_of_fresh {m : Feed} {slot : Slot} {l : List Shred}
    (h : ∀ pre s post, l = pre ++ s :: post → s.slot = slot →
      ¬ (pre.foldl (ingest ledger) m).highest - slotLookback > slot) :
    (m.live ledger l).filter (fun s => s.slot = slot) = l.filter (fun s => s.slot = slot) := by
  induction l generalizing m with
  | nil => rfl
  | cons s l ih =>
      unfold live
      split
      · rename_i hstale
        have hne : s.slot ≠ slot := by
          rintro rfl
          exact h [] s l rfl rfl hstale
        have hsame : m.ingest ledger s = m := by simp [ingest, hstale]
        rw [ih fun pre t post hl ht => by
          have := h (s :: pre) t post (by simp [hl]) ht
          rwa [List.foldl_cons, hsame] at this]
        simp [hne]
      · have hrest := ih (m := m.ingest ledger s) fun pre t post hl ht =>
          h (s :: pre) t post (by simp [hl]) ht
        by_cases hs : s.slot = slot <;> simp [hs, hrest]

/-- The ingest loop, seen from one slot. -/
theorem foldl_ingest_slot (m : Feed) (l : List Shred) (slot : Slot) :
    ((l.foldl (ingest ledger) m).slots slot, atKey slot (l.foldl (ingest ledger) m).work) =
      ((m.live ledger l).filter fun s => s.slot = slot).foldl (SlotState.offer ledger)
        (m.slots slot, atKey slot m.work) := by
  induction l generalizing m with
  | nil => rfl
  | cons s l ih =>
      rw [List.foldl_cons, ih, live]
      split
      · rename_i hstale
        simp [ingest, hstale]
      · rename_i hfresh
        by_cases hs : s.slot = slot
        · subst hs
          simp only [decide_true, List.filter_cons_of_pos, List.foldl_cons]
          congr 1
          cases hin : (m.slots s.slot).ingest ledger s with
          | none => simp [ingest, hfresh, SlotState.offer, hin]
          | some σ => simp [ingest, hfresh, SlotState.offer, hin, atKey_cons]
        · have hs' : slot ≠ s.slot := fun h => hs h.symm
          simp only [hs, decide_false, Bool.false_eq_true, not_false_eq_true,
            List.filter_cons_of_neg]
          congr 1
          cases hin : (m.slots s.slot).ingest ledger s with
          | none => simp [ingest, hfresh, hin]
          | some σ => simp [ingest, hfresh, hin, atKey_cons, hs, hs']

end Feed

namespace Machine

def initial : Machine := ⟨fun _ => SlotState.initial, 0⟩

/-- The ingest loop starts with an empty work list. -/
def toFeed (m : Machine) : Feed := ⟨m.slots, m.highest, []⟩

/-- One call before pruning. -/
def process (ledger : Ledger) (order : IterOrder) (m : Machine) (shreds : List Shred) : Outcome :=
  let feed := shreds.foldl (Feed.ingest ledger) m.toFeed
  let work := sortDedup lexLe feed.work
  let recovered := keyedRun (fun _ σ f => σ.recover ledger order f) feed.slots work
  let deshredded := keyedRun (fun slot σ f => σ.deshred ledger slot f) recovered.1 work
  { machine := ⟨deshredded.1, feed.highest⟩
    work := work
    emitted := deshredded.2.filterMap Prod.snd
    count := (recovered.2.map Prod.snd).sum }

/-- Forget the slots below the threshold. -/
def prune (m : Machine) : Machine :=
  { m with
    slots := fun slot =>
      if slot < m.highest - slotLookback then SlotState.initial else m.slots slot }

/-- The shreds of one slot that a call offers to it. -/
def offered (ledger : Ledger) (m : Machine) (shreds : List Shred) (slot : Slot) : List Shred :=
  (m.toFeed.live ledger shreds).filter fun s => s.slot = slot

variable {ledger : Ledger} {order : IterOrder}

/-- The shreds offered to a slot are some of its shreds, in order. -/
theorem offered_sublist (m : Machine) (shreds : List Shred) (slot : Slot) :
    (m.offered ledger shreds slot).Sublist (shreds.filter fun s => s.slot = slot) :=
  (Feed.live_sublist _ _).filter _

/-- Seen from one slot, the ingest loop of a call offers it its shreds. -/
theorem feed_slot (m : Machine) (shreds : List Shred) (slot : Slot) :
    ((shreds.foldl (Feed.ingest ledger) m.toFeed).slots slot,
        atKey slot (shreds.foldl (Feed.ingest ledger) m.toFeed).work) =
      (m.slots slot).feed ledger (m.offered ledger shreds slot) :=
  Feed.foldl_ingest_slot m.toFeed shreds slot

/-- Seen from one slot, the work list of a call is the list of sets that were touched. -/
theorem touched_slot (m : Machine) (shreds : List Shred) (slot : Slot) :
    atKey slot (sortDedup lexLe (shreds.foldl (Feed.ingest ledger) m.toFeed).work) =
      (m.slots slot).touched ledger (m.offered ledger shreds slot) := by
  rw [atKey_sortDedup, SlotState.touched, ← feed_slot]

/-- Seen from one slot, a call is the one-slot call on the shreds offered to it. -/
theorem process_slot (m : Machine) (shreds : List Shred) (slot : Slot) :
    (m.process ledger order shreds).machine.slots slot =
      ((m.slots slot).process ledger order slot (m.offered ledger shreds slot)).1 := by
  have hfeed := congrArg Prod.fst (@feed_slot ledger m shreds slot)
  simp only [process, SlotState.process, SlotState.deshredAll, SlotState.recoverAll,
    keyedRun_state, touched_slot, ← hfeed]

/-- An attempt on a slot emits an item of that slot. -/
theorem deshred_emits_slot {slot : Slot} {σ : SlotState} {f : FecSetIndex} {d : Deshredded}
    (h : (σ.deshred ledger slot f).2 = some d) : d.slot = slot := by
  rcases SlotState.deshred_cases ledger slot σ f with heq | ⟨_, _, _, _, _, _, _, heq⟩
  · rw [heq] at h
    contradiction
  · rw [heq, Option.some.injEq] at h
    rw [← h]

/-- Every item of the deshred loop belongs to the slot that it is keyed by. -/
theorem keyedRun_deshred_slot (f : Slot → SlotState) (work : List (Slot × FecSetIndex)) :
    ∀ p ∈ (keyedRun (fun slot σ f => σ.deshred ledger slot f) f work).2,
      ∀ d, p.2 = some d → d.slot = p.1 := by
  induction work generalizing f with
  | nil => simp [keyedRun]
  | cons w work ih =>
      intro p hp d hd
      simp only [keyedRun, List.mem_cons] at hp
      rcases hp with rfl | hp
      · exact deshred_emits_slot hd
      · exact ih _ p hp d hd

/-- The items of one slot among keyed outcomes. -/
theorem filter_filterMap_snd {l : List (Slot × Option Deshredded)}
    (h : ∀ p ∈ l, ∀ d, p.2 = some d → d.slot = p.1) (slot : Slot) :
    (l.filterMap Prod.snd).filter (fun d => d.slot = slot) = (atKey slot l).filterMap id := by
  induction l with
  | nil => rfl
  | cons p l ih =>
      have hrest := ih fun q hq => h q (List.mem_cons_of_mem p hq)
      have hhead := h p List.mem_cons_self
      rcases p with ⟨k, o⟩
      cases o with
      | none => by_cases hk : k = slot <;> simp [atKey_cons, hk, hrest]
      | some d =>
          obtain rfl : d.slot = k := hhead d rfl
          by_cases hk : d.slot = slot <;> simp [atKey_cons, hk, hrest]

/-- The items a call emits for one slot are those of the one-slot call. -/
theorem process_emitted (m : Machine) (shreds : List Shred) (slot : Slot) :
    (m.process ledger order shreds).emitted.filter (fun d => d.slot = slot) =
      ((m.slots slot).process ledger order slot (m.offered ledger shreds slot)).2 := by
  have hfeed := congrArg Prod.fst (@feed_slot ledger m shreds slot)
  simp only [process]
  rw [filter_filterMap_snd (keyedRun_deshred_slot _ _)]
  simp only [keyedRun_outputs, keyedRun_state, SlotState.process, SlotState.deshredAll,
    SlotState.recoverAll, touched_slot, ← hfeed]

/-- Only the ingest loop of a call moves the highest slot. -/
theorem process_highest (m : Machine) (shreds : List Shred) :
    (m.process ledger order shreds).machine.highest =
      (shreds.foldl (Feed.ingest ledger) m.toFeed).highest := by
  simp only [process]

/-- A call never lowers the highest slot. -/
theorem highest_le_process (m : Machine) (shreds : List Shred) :
    m.highest ≤ (m.process ledger order shreds).machine.highest := by
  rw [process_highest]
  exact Feed.highest_le_foldl m.toFeed shreds

/-- A slot below the threshold is offered nothing. -/
theorem offered_eq_nil_of_dead {m : Machine} {slot : Slot} (h : slot < m.highest - slotLookback)
    (shreds : List Shred) : m.offered ledger shreds slot = [] :=
  Feed.live_eq_nil_of_dead (m := m.toFeed) h shreds

end Machine

end ShredstreamProxy
