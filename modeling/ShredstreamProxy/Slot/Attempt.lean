import ShredstreamProxy.Slot.Simulation

/-!
# Attempts of a run

A call attempts to recover and to deshred each erasure set of its work list.  This module
names the states in which the code makes these attempts, and gives the induction rule of the
code itself: an invariant of the slots that holds initially and is kept by every shred that
a packet brings and by every attempt that the run makes holds in every state of the run.

Main results:

- Theorems {lit}`RecoverTurn.exists_run` and {lit}`DeshredTurn.exists_run`: an attempt sees
  what the machine holds for its slot at that point.
- Theorem {lit}`TurnInvariant.of_runCalls`: the invariant after every run.
- Theorems {lit}`TurnInvariant.of_turn` and {lit}`TurnInvariant.of_recoverTurn`: the invariant at
  the turn of every packet and of every recovery attempt.
-/

namespace ShredstreamProxy

open Exec KeyedFold

variable {ledger : Ledger} {calls : List Call} {P : Slot → SlotState → Prop}

/-- Some call of the run, iterating in the given order, comes to work `w` of its recovery
loop with the tracked slots `m`. -/
def RecoverTurn (ledger : Ledger) (calls : List Call) (order : IterOrder) (m : SlotMap)
    (w : Slot × FecSetIndex) : Prop :=
  ∃ (before : List Call) (c : Call) (after : List Call) (h : History) (b : IngestState) (n : Nat)
    (pre post : List (Slot × FecSetIndex)), calls = before ++ c :: after ∧ c.order = order ∧
    runCalls ledger before = .ok h ∧
    c.packets.foldlM (ingestPacket ledger) h.state.toIngest = .ok b ∧
    sortDedup lexLe b.slotFecIndexesToIterate = pre ++ w :: post ∧
    pre.foldlM (recoverStep ledger order) (b.allShreds, 0) = .ok (m, n)

/-- Some call of the run comes to work `w` of its deshred loop with the tracked slots `m`. -/
def DeshredTurn (ledger : Ledger) (calls : List Call) (m : SlotMap) (w : Slot × FecSetIndex) :
    Prop :=
  ∃ (before : List Call) (c : Call) (after : List Call) (h : History) (b : IngestState)
    (recovered : SlotMap) (n : Nat) (acc : DeshredState) (pre post : List (Slot × FecSetIndex)),
    calls = before ++ c :: after ∧ runCalls ledger before = .ok h ∧
    c.packets.foldlM (ingestPacket ledger) h.state.toIngest = .ok b ∧
    (sortDedup lexLe b.slotFecIndexesToIterate).foldlM (recoverStep ledger c.order)
      (b.allShreds, 0) = .ok (recovered, n) ∧
    sortDedup lexLe b.slotFecIndexesToIterate = pre ++ w :: post ∧
    pre.foldlM (deshredStep ledger) ⟨recovered, [], ServiceMetrics.zero⟩ = .ok acc ∧
    acc.allShreds = m

theorem RecoverTurn.of_prefix {before after : List Call} {order : IterOrder} {m : SlotMap}
    {w : Slot × FecSetIndex} (h : RecoverTurn ledger before order m w) :
    RecoverTurn ledger (before ++ after) order m w := by
  rcases h with ⟨before', c, after', h, b, n, pre, post, rfl, hrest⟩
  exact ⟨before', c, after' ++ after, h, b, n, pre, post, by simp, hrest⟩

theorem DeshredTurn.of_prefix {before after : List Call} {m : SlotMap} {w : Slot × FecSetIndex}
    (h : DeshredTurn ledger before m w) : DeshredTurn ledger (before ++ after) m w := by
  rcases h with ⟨before', c, after', h, b, recovered, n, acc, pre, post, rfl, hrest⟩
  exact ⟨before', c, after' ++ after, h, b, recovered, n, acc, pre, post, by simp, hrest⟩

/-! ## Attempts and the machine -/

/-- What a call ingested for a slot of its work list, and the work list itself, as the machine
computes them. -/
theorem ingested_of_sim {state : ProxyState} {μ : Machine} (hsim : Sim state μ)
    {c : Call} {b : IngestState}
    (hb : c.packets.foldlM (ingestPacket ledger) state.toIngest = .ok b)
    {w : Slot × FecSetIndex} (hw : w ∈ sortDedup lexLe b.slotFecIndexesToIterate) :
    b.allShreds.Good ∧
      b.allShreds.view w.1 =
        ((μ.slots w.1).feed ledger (μ.offered ledger (c.shreds ledger) w.1)).1 ∧
      atKey w.1 (sortDedup lexLe b.slotFecIndexesToIterate) =
        (μ.slots w.1).touched ledger (μ.offered ledger (c.shreds ledger) w.1) ∧
      ∀ w ∈ sortDedup lexLe b.slotFecIndexesToIterate,
        ∃ s ∈ c.shreds ledger, (s.slot, s.fecSetIndex) = w := by
  have hstart : state.toIngest.Refines state.view.toFeed := ⟨hsim.good, rfl, rfl, rfl⟩
  rcases @foldlM_ingestPacket_refines ledger _ _ hstart c.packets with ⟨b₁, hb₁, hR⟩
  obtain rfl := Except.ok.inj (hb.symm.trans hb₁)
  replace hR : b.Refines ((c.shreds ledger).foldl (Feed.ingest ledger) state.view.toFeed) := hR
  have hagree := @Feed.Agree.foldl ledger _ _ _ hsim.agree.toFeed (c.shreds ledger)
  have hslot := congrArg Prod.fst (@Machine.feed_slot ledger μ (c.shreds ledger) w.1)
  have hwork : b.slotFecIndexesToIterate =
      ((c.shreds ledger).foldl (Feed.ingest ledger) μ.toFeed).work := hR.work.trans hagree.work
  refine ⟨hR.good, ?_, ?_, ?_⟩
  · have hlive := hagree.work_ge w (by rw [← hR.work]; exact mem_sortDedup.mp hw)
    rw [hR.view]
    exact (hagree.slots w.1 hlive).trans hslot
  · rw [hwork, Machine.touched_slot]
  · intro w hw
    rw [mem_sortDedup, hR.work] at hw
    exact (Feed.exists_of_mem_work hw).resolve_left List.not_mem_nil

/-- Split one key's part of a work list where the whole list is split. -/
theorem atKey_split {work pre post : List (Slot × FecSetIndex)} {w : Slot × FecSetIndex}
    (h : work = pre ++ w :: post) :
    atKey w.1 work = atKey w.1 pre ++ w.2 :: atKey w.1 post := by
  rw [h, atKey_append, atKey_cons, if_pos rfl]

/-- After some attempts of the recovery loop, the code holds for a slot of the work list what the
machine holds for it after the attempts on that slot. -/
theorem view_of_attempts {before : List Call} {c : Call} {h : History} {b : IngestState}
    (hh : runCalls ledger before = .ok h)
    (hb : c.packets.foldlM (ingestPacket ledger) h.state.toIngest = .ok b)
    {pre post : List (Slot × FecSetIndex)} {w : Slot × FecSetIndex}
    (hwork : sortDedup lexLe b.slotFecIndexesToIterate = pre ++ w :: post) {m : SlotMap} {n : Nat}
    (hpre : pre.foldlM (recoverStep ledger c.order) (b.allShreds, 0) = .ok (m, n)) :
    let μ := (Machine.runs ledger before).machine
    let shreds := μ.offered ledger (c.shreds ledger) w.1
    (μ.slots w.1).touched ledger shreds = atKey w.1 pre ++ w.2 :: atKey w.1 post ∧
      m.view w.1 = (run (SlotState.recover ledger c.order)
        ((μ.slots w.1).feed ledger shreds).1 (atKey w.1 pre)).1 := by
  have hw : w ∈ sortDedup lexLe b.slotFecIndexesToIterate := by simp [hwork]
  rcases ingested_of_sim (sim_of_runCalls hh) hb hw with ⟨hgood, hview, htouched, hsource⟩
  constructor
  · rw [← htouched]
    exact atKey_split hwork
  · have hlt : ∀ w ∈ pre, w.2 < maxDataShredsPerSlot := by
      intro w hw
      rcases hsource w (by rw [hwork]; exact List.mem_append_left _ hw) with ⟨s, hs, rfl⟩
      exact (Call.admitted_of_mem hs).fecSetIndex_lt
    rcases @foldlM_recoverStep_refines ledger c.order pre _ hgood hlt 0 with ⟨r, hr, _, hr', _⟩
    obtain rfl := Except.ok.inj (hpre.symm.trans hr)
    simp only [hr', keyedRun_state, hview]

/-- A recovery attempt sees what the machine holds for its slot after the earlier attempts
of the call, and its set was touched by a shred of the call. -/
theorem RecoverTurn.exists_run {order : IterOrder} {m : SlotMap} {w : Slot × FecSetIndex}
    (hturn : RecoverTurn ledger calls order m w) :
    ∃ (before : List Call) (c : Call) (after : List Call) (pre post : List FecSetIndex),
      calls = before ++ c :: after ∧ c.order = order ∧
      (let μ := (Machine.runs ledger before).machine
       let shreds := μ.offered ledger (c.shreds ledger) w.1
       (μ.slots w.1).touched ledger shreds = pre ++ w.2 :: post ∧
        m.view w.1 = (run (SlotState.recover ledger order)
          ((μ.slots w.1).feed ledger shreds).1 pre).1) ∧
      ∃ s ∈ c.shreds ledger, (s.slot, s.fecSetIndex) = w := by
  rcases hturn with ⟨before, c, after, h, b, n, pre, post, hcalls, horder, hh, hb, hwork, hpre⟩
  subst horder
  have hw : w ∈ sortDedup lexLe b.slotFecIndexesToIterate := by simp [hwork]
  rcases ingested_of_sim (sim_of_runCalls hh) hb hw with ⟨_, _, _, hsource⟩
  exact ⟨before, c, after, atKey w.1 pre, atKey w.1 post, hcalls, rfl,
    view_of_attempts hh hb hwork hpre, hsource w hw⟩

/-- Every attempt that the machine makes on a slot is an attempt of the code. -/
theorem exists_recoverTurn {before : List Call} {c : Call} (after : List Call) {slot : Slot}
    {pre post : List FecSetIndex} {f : FecSetIndex}
    {shreds : List Shred}
    (hshreds : shreds = (Machine.runs ledger before).machine.offered ledger (c.shreds ledger) slot)
    (htouched : ((Machine.runs ledger before).machine.slots slot).touched ledger shreds =
      pre ++ f :: post) :
    ∃ m, RecoverTurn ledger (before ++ c :: after) c.order m (slot, f) ∧
      m.view slot = (run (SlotState.recover ledger c.order)
        (((Machine.runs ledger before).machine.slots slot).feed ledger shreds).1 pre).1 := by
  subst hshreds
  rcases runCalls_sim ledger before with ⟨h, hh, hsim, _⟩
  have hstart : h.state.toIngest.Refines h.state.view.toFeed := ⟨hsim.good, rfl, rfl, rfl⟩
  rcases @foldlM_ingestPacket_refines ledger _ _ hstart c.packets with ⟨b, hb, hR⟩
  have hagree := @Feed.Agree.foldl ledger _ _ _ hsim.agree.toFeed (c.shreds ledger)
  -- the set is on the work list of the code
  have hw : (slot, f) ∈ sortDedup lexLe b.slotFecIndexesToIterate := by
    rw [hR.work.trans hagree.work, ← mem_atKey, Machine.touched_slot, htouched]
    exact List.mem_append_right _ List.mem_cons_self
  rcases List.append_of_mem hw with ⟨earlier, later, hwork⟩
  have hlt : ∀ w ∈ earlier, w.2 < maxDataShredsPerSlot := by
    intro w hmem
    rcases ingested_of_sim hsim hb hw with ⟨_, _, _, hsource⟩
    rcases hsource w (by rw [hwork]; exact List.mem_append_left _ hmem) with ⟨s, hs, rfl⟩
    exact (Call.admitted_of_mem hs).fecSetIndex_lt
  rcases @foldlM_recoverStep_refines ledger c.order earlier _ hR.good hlt 0 with
    ⟨⟨m, n⟩, hm, _⟩
  refine ⟨m, ⟨before, c, after, h, b, n, earlier, later, rfl, rfl, hh, hb, hwork, hm⟩, ?_⟩
  rcases view_of_attempts hh hb hwork hm with ⟨hsplit, hview⟩
  -- a set occurs once among those touched, so it was the same attempts that came before
  have hnodup : (pre ++ f :: post).Nodup := htouched ▸ nodup_sortDedup _
  have hnot := (List.nodup_middle.mp hnodup).notMem
  rw [List.mem_append, not_or] at hnot
  have hpre := (List.append_cons_inj_of_notMem hnot.1 hnot.2).mp (htouched.symm.trans hsplit)
  rw [hview, hpre.1]

/-- A deshred attempt sees what the machine holds for its slot after the recovery phase and
the earlier attempts of the call, and its set was touched by a shred of the call. -/
theorem DeshredTurn.exists_run {m : SlotMap} {w : Slot × FecSetIndex}
    (hturn : DeshredTurn ledger calls m w) :
    ∃ (before : List Call) (c : Call) (after : List Call) (pre post : List FecSetIndex),
      calls = before ++ c :: after ∧
      (let μ := (Machine.runs ledger before).machine
       let shreds := μ.offered ledger (c.shreds ledger) w.1
       (μ.slots w.1).touched ledger shreds = pre ++ w.2 :: post ∧
        m.view w.1 = (run (SlotState.deshred ledger w.1)
          ((μ.slots w.1).recoverAll ledger c.order shreds).1 pre).1) ∧
      ∃ s ∈ c.shreds ledger, (s.slot, s.fecSetIndex) = w := by
  rcases hturn with
    ⟨before, c, after, h, b, recovered, n, acc, pre, post, hcalls, hh, hb, hrec, hwork, hpre, rfl⟩
  have hw : w ∈ sortDedup lexLe b.slotFecIndexesToIterate := by simp [hwork]
  rcases ingested_of_sim (sim_of_runCalls hh) hb hw with
    ⟨hgood, hview, htouched, hsource⟩
  refine ⟨before, c, after, atKey w.1 pre, atKey w.1 post, hcalls, ⟨?_, ?_⟩, hsource w hw⟩
  · rw [← htouched]
    exact atKey_split hwork
  · have hlt : ∀ w ∈ sortDedup lexLe b.slotFecIndexesToIterate, w.2 < maxDataShredsPerSlot := by
      intro w hw
      rcases hsource w hw with ⟨s, hs, rfl⟩
      exact (Call.admitted_of_mem hs).fecSetIndex_lt
    rcases @foldlM_recoverStep_refines ledger c.order _ _ hgood hlt 0 with ⟨r, hr, hrgood, hr', _⟩
    obtain rfl := Except.ok.inj (hrec.symm.trans hr)
    rcases @foldlM_deshredStep_refines ledger pre ⟨recovered, [], ServiceMetrics.zero⟩ hrgood with
      ⟨d, hd, _, hd', _⟩
    obtain rfl := Except.ok.inj (hpre.symm.trans hd)
    simp only at hr' hd'
    simp only [hd', hr', keyedRun_state, hview, htouched, SlotState.recoverAll]

/-- What it takes to be an invariant of the slots along a run, step by step as the run makes them.
-/
structure TurnInvariant (ledger : Ledger) (calls : List Call) (P : Slot → SlotState → Prop) :
    Prop where
  initial : ∀ slot, P slot SlotState.initial
  ingest : ∀ b p s σ, Turn ledger calls b p → packetShred ledger p = some s → ¬ b.stale s.slot →
    b.allShreds.Good → P s.slot (b.allShreds.view s.slot) →
    (b.allShreds.view s.slot).ingest ledger s = some σ → P s.slot σ
  recover : ∀ order m w, RecoverTurn ledger calls order m w → m.Good → P w.1 (m.view w.1) →
    P w.1 ((m.view w.1).recover ledger order w.2).1
  deshred : ∀ m w, DeshredTurn ledger calls m w → m.Good → P w.1 (m.view w.1) →
    P w.1 ((m.view w.1).deshred ledger w.1 w.2).1

/-- What it takes to be an invariant of the slots along a run, whatever the order of its packets. -/
structure ViewInvariant (ledger : Ledger) (calls : List Call) (P : Slot → SlotState → Prop) :
    Prop where
  initial : ∀ slot, P slot SlotState.initial
  ingest : ∀ σ s σ', (∃ c ∈ calls, s ∈ c.shreds ledger) → P s.slot σ →
    σ.ingest ledger s = some σ' → P s.slot σ'
  recover : ∀ order m w, RecoverTurn ledger calls order m w → m.Good → P w.1 (m.view w.1) →
    P w.1 ((m.view w.1).recover ledger order w.2).1
  deshred : ∀ m w, DeshredTurn ledger calls m w → m.Good → P w.1 (m.view w.1) →
    P w.1 ((m.view w.1).deshred ledger w.1 w.2).1

/-- The tracked slots are good and satisfy the invariant. -/
def SlotMap.Keeps (P : Slot → SlotState → Prop) (m : SlotMap) : Prop :=
  m.Good ∧ ∀ slot, P slot (m.view slot)

/-! ## Single steps -/

/-- Changing one slot keeps the invariant if the slot does. -/
theorem SlotMap.Keeps.of_update {m m' : SlotMap} (h : m.Keeps P) (hgood : m'.Good) {slot : Slot}
    {σ : SlotState} (hview : m'.view = Function.update m.view slot σ) (hσ : P slot σ) :
    m'.Keeps P := by
  refine ⟨hgood, ?_⟩
  intro slot'
  rw [hview]
  by_cases hs : slot' = slot
  · subst hs
    simpa using hσ
  · simpa [hs] using h.2 slot'

/-- A packet keeps the invariant if the shred that it brings does. -/
theorem SlotMap.Keeps.ingestPacket {b b' : IngestState} {p : Packet} (h : b.allShreds.Keeps P)
    (hb : ingestPacket ledger b p = .ok b')
    (hstep : ∀ s σ, packetShred ledger p = some s → ¬ b.stale s.slot →
      (b.allShreds.view s.slot).ingest ledger s = some σ → P s.slot σ) :
    b'.allShreds.Keeps P := by
  have hstart : b.Refines ⟨b.allShreds.view, b.highestSlotSeen, b.slotFecIndexesToIterate⟩ :=
    ⟨h.1, rfl, rfl, rfl⟩
  rcases @ingestPacket_refines ledger _ _ hstart p with ⟨b₁, hb₁, hR⟩
  obtain rfl := Except.ok.inj (hb.symm.trans hb₁)
  have hsame : b'.allShreds.view = b.allShreds.view → b'.allShreds.Keeps P := by
    intro hview
    refine ⟨hR.good, ?_⟩
    rw [hview]
    exact h.2
  cases hp : packetShred ledger p with
  | none =>
      rw [hp] at hR
      exact hsame hR.view
  | some s =>
      rw [hp, Option.elim_some, Feed.ingest] at hR
      split at hR
      · exact hsame hR.view
      · rename_i hfresh
        split at hR
        · exact hsame hR.view
        · rename_i σ hin
          exact h.of_update hR.good hR.view (hstep s σ hp hfresh hin)

/-- A step of the recovery loop keeps the invariant if its attempt does. -/
theorem SlotMap.Keeps.recoverStep {order : IterOrder} {acc acc' : SlotMap × Nat}
    {w : Slot × FecSetIndex} (h : acc.1.Keeps P) (hw : w.2 < maxDataShredsPerSlot)
    (hacc : recoverStep ledger order acc w = .ok acc')
    (hstep : P w.1 ((acc.1.view w.1).recover ledger order w.2).1) : acc'.1.Keeps P := by
  rcases view_recoverStep h.1 hw hacc with ⟨hgood, hview, _⟩
  exact h.of_update hgood hview hstep

/-- A step of the deshred loop keeps the invariant if its attempt does. -/
theorem SlotMap.Keeps.deshredStep {acc acc' : DeshredState} {w : Slot × FecSetIndex}
    (h : acc.allShreds.Keeps P) (hacc : deshredStep ledger acc w = .ok acc')
    (hstep : P w.1 ((acc.allShreds.view w.1).deshred ledger w.1 w.2).1) :
    acc'.allShreds.Keeps P := by
  rcases @foldlM_deshredStep_refines ledger [w] acc h.1 with ⟨r, hr, hgood, hview, _⟩
  rw [List.foldlM_cons, hacc] at hr
  obtain rfl : acc' = r := by simpa using hr
  exact h.of_update hgood hview hstep

/-- Pruning keeps the invariant, as it only brings slots back to their start. -/
theorem SlotMap.Keeps.retained {m : SlotMap} (h : m.Keeps P)
    (hinit : ∀ slot, P slot SlotState.initial) (highestSlotSeen : Slot) :
    (m.retained highestSlotSeen).Keeps P := by
  refine ⟨h.1.retained _, ?_⟩
  intro slot
  rw [SlotMap.view_retained]
  split
  · exact hinit slot
  · exact h.2 slot

/-! ## Calls and runs -/

/-- The sets that a call works on. -/
theorem work_fecSet_lt {before : List Call} {c : Call} {history : History} {b : IngestState}
    (hh : runCalls ledger before = .ok history)
    (hb : c.packets.foldlM (ingestPacket ledger) history.state.toIngest = .ok b) :
    ∀ w ∈ sortDedup lexLe b.slotFecIndexesToIterate, w.2 < maxDataShredsPerSlot := by
  intro w hw
  rcases ingested_of_sim (sim_of_runCalls hh) hb hw with ⟨_, _, _, hsource⟩
  rcases hsource w hw with ⟨s, hs, rfl⟩
  exact (Call.admitted_of_mem hs).fecSetIndex_lt

namespace TurnInvariant

theorem of_append {before after : List Call} (h : TurnInvariant ledger (before ++ after) P) :
    TurnInvariant ledger before P where
  initial := h.initial
  ingest := fun b p s σ hturn => h.ingest b p s σ hturn.of_prefix
  recover := fun order m w hturn => h.recover order m w hturn.of_prefix
  deshred := fun m w hturn => h.deshred m w hturn.of_prefix

section Call

variable {before after : List Call} {c : Call} {history : History}
  (h : TurnInvariant ledger (before ++ c :: after) P) (hh : runCalls ledger before = .ok history)
  (hkeeps : history.state.allShreds.Keeps P)
include h hh hkeeps

/-- The invariant after some packets of a call. -/
theorem of_packets {earlier later : List Packet} (hpackets : c.packets = earlier ++ later)
    {b : IngestState} (hb : earlier.foldlM (ingestPacket ledger) history.state.toIngest = .ok b) :
    b.allShreds.Keeps P := by
  refine foldlM_invariant (I := fun b : IngestState => b.allShreds.Keeps P) hb hkeeps ?_
  intro pre p post b₁ b₂ hl hpre hb₂ h₁
  refine h₁.ingestPacket hb₂ ?_
  intro s σ hp hfresh hin
  refine h.ingest b₁ p s σ ?_ hp hfresh h₁.1 (h₁.2 s.slot) hin
  exact ⟨before, c, after, history, pre, post ++ later, rfl, hh, by simp [hpackets, hl], hpre⟩

/-- The invariant after some recovery attempts of a call. -/
theorem of_recovered {b : IngestState}
    (hb : c.packets.foldlM (ingestPacket ledger) history.state.toIngest = .ok b)
    {pre post : List (Slot × FecSetIndex)}
    (hwork : sortDedup lexLe b.slotFecIndexesToIterate = pre ++ post) {acc : SlotMap × Nat}
    (hacc : pre.foldlM (recoverStep ledger c.order) (b.allShreds, 0) = .ok acc) :
    acc.1.Keeps P := by
  have hingested := h.of_packets hh hkeeps (List.append_nil _).symm hb
  refine foldlM_invariant (I := fun acc : SlotMap × Nat => acc.1.Keeps P) hacc hingested ?_
  rintro pre' w post' ⟨m, k⟩ acc' hl hpre hstep hm
  have hlt := work_fecSet_lt hh hb w (by simp [hwork, hl])
  refine hm.recoverStep hlt hstep (h.recover c.order m w ?_ hm.1 (hm.2 w.1))
  exact ⟨before, c, after, history, b, k, pre', post' ++ post, rfl, rfl, hh, hb,
    by simp [hwork, hl], hpre⟩

/-- The invariant after one more call. -/
theorem of_call {r : CallResult} (hr : reconstructShreds ledger c history.state = .ok r) :
    r.state.allShreds.Keeps P := by
  rcases @reconstructShredsNoRetain_refines ledger _ hkeeps.1 c with ⟨r', hr', hgood, _, _, _⟩
  rcases reconstructShreds_eq hr' hgood with ⟨r₁, hr₁, hstate, _, _, _⟩
  obtain rfl := Except.ok.inj (hr.symm.trans hr₁)
  rw [hstate]
  refine SlotMap.Keeps.retained ?_ h.initial _
  simp only [reconstructShredsNoRetain] at hr'
  rcases bind_eq_ok_iff.mp hr' with ⟨b, hb, hr'⟩
  rcases bind_eq_ok_iff.mp hr' with ⟨⟨recovered, n⟩, hrec, hr'⟩
  rcases bind_eq_ok_iff.mp hr' with ⟨d, hd, heq⟩
  obtain rfl := Except.ok.inj heq
  have hrecovered : recovered.Keeps P :=
    h.of_recovered hh hkeeps hb (List.append_nil _).symm hrec
  refine foldlM_invariant (I := fun acc : DeshredState => acc.allShreds.Keeps P) hd hrecovered ?_
  intro pre w post acc acc' hl hpre hacc hm
  refine hm.deshredStep hacc (h.deshred acc.allShreds w ?_ hm.1 (hm.2 w.1))
  exact ⟨before, c, after, history, b, recovered, n, acc, pre, post, rfl, hh, hb, hrec, hl, hpre,
    rfl⟩

end Call

/-- The tracked slots keep the invariant along a run. -/
theorem keeps_of_runCalls (h : TurnInvariant ledger calls P) {history : History}
    (hh : runCalls ledger calls = .ok history) : history.state.allShreds.Keeps P := by
  induction calls using List.reverseRecOn generalizing history with
  | nil =>
      obtain rfl : History.initial = history := Except.ok.inj hh
      refine ⟨SlotMap.good_empty, fun slot => ?_⟩
      have hview : History.initial.state.allShreds.view slot = SlotState.initial :=
        congrFun (congrArg Machine.slots ProxyState.view_initial) slot
      rw [hview]
      exact h.initial slot
  | append_singleton calls c ih =>
      rcases runCalls_concat.mp hh with ⟨h₀, r, hh₀, hr, rfl⟩
      exact h.of_call hh₀ (ih h.of_append hh₀) hr

/-- The invariant holds after every run. -/
theorem of_runCalls (h : TurnInvariant ledger calls P) {history : History}
    (hh : runCalls ledger calls = .ok history) (slot : Slot) :
    P slot (history.state.allShreds.view slot) :=
  (h.keeps_of_runCalls hh).2 slot

/-- The invariant holds at the turn of every packet. -/
theorem of_turn (h : TurnInvariant ledger calls P) {b : IngestState} {p : Packet}
    (hturn : Turn ledger calls b p) :
    b.allShreds.Good ∧ ∀ slot, P slot (b.allShreds.view slot) := by
  rcases hturn with ⟨before, c, after, history, earlier, later, rfl, hh, hpackets, hb⟩
  exact h.of_packets hh (h.of_append.keeps_of_runCalls hh) hpackets hb

/-- The invariant holds at the turn of every recovery attempt. -/
theorem of_recoverTurn (h : TurnInvariant ledger calls P) {order : IterOrder} {m : SlotMap}
    {w : Slot × FecSetIndex} (hturn : RecoverTurn ledger calls order m w) :
    m.Good ∧ ∀ slot, P slot (m.view slot) := by
  rcases hturn with ⟨before, c, after, history, b, n, pre, post, rfl, rfl, hh, hb, hwork, hacc⟩
  exact h.of_recovered hh (h.of_append.keeps_of_runCalls hh) hb hwork hacc

end TurnInvariant

namespace ViewInvariant

/-- An invariant that does not look at the order of packets is an invariant. -/
theorem turnInvariant (h : ViewInvariant ledger calls P) : TurnInvariant ledger calls P where
  initial := h.initial
  ingest := by
    intro b p s σ hturn hp _ _ hσ hin
    rcases hturn with ⟨before, c, after, _, earlier, later, rfl, _, hpackets, _⟩
    have hmem : p ∈ c.packets := by simp [hpackets]
    exact h.ingest _ s σ ⟨c, by simp, List.mem_filterMap.mpr ⟨p, hmem, hp⟩⟩ hσ hin
  recover := h.recover
  deshred := h.deshred

/-- The invariant holds after every run. -/
theorem of_runCalls (h : ViewInvariant ledger calls P) {history : History}
    (hh : runCalls ledger calls = .ok history) (slot : Slot) :
    P slot (history.state.allShreds.view slot) :=
  h.turnInvariant.of_runCalls hh slot

/-- The invariant holds at the turn of every packet. -/
theorem of_turn (h : ViewInvariant ledger calls P) {b : IngestState} {p : Packet}
    (hturn : Turn ledger calls b p) : b.allShreds.Good ∧ ∀ slot, P slot (b.allShreds.view slot) :=
  h.turnInvariant.of_turn hturn

end ViewInvariant

end ShredstreamProxy
