import ShredstreamProxy.Service.Entries
import ShredstreamProxy.Slot.Simulation

/-!
# Delivery of entries

Between the reconstructor and a client stand a broadcast channel that forgets and a queue that makes
its sender wait. What a client has read, what waits in its queue and what its task holds is always
the stretch of the broadcast sequence from its subscription to the position of its receiver, so that
no entry is skipped, repeated or reordered. The price is that a task which finds entries gone leaves
its loop, although its client and the sender are still there.

Main results:

- Theorem {lit}`Subscription.Inv.of_step`: the stretch is kept by every step.
- Theorem {lit}`received_prefix`: a client receives a prefix of what was sent since it subscribed.
- Theorem {lit}`never_cut_off_iff`: when no task of a run ends before its peers.
- Theorem {lit}`EntryService.run_burst`: the service after some batches that nothing comes between.
- Theorem {lit}`burst_ends_stream`: a burst that ends the stream of a connected client.
-/

namespace ShredstreamProxy

open Channel

variable {ledger : Ledger} {capacity i since : Nat} {ch ch' : Broadcast PbEntry}
  {sub sub' : Subscription} {a : EntryAction}

/-! ## Batches -/

/-- The entries of a batch are sent in order. -/
theorem EntryService.foldl_drain (service : EntryService) :
    (List.replicate service.deshreddedEntries.length EntryAction.drain).foldl
      (EntryService.step ledger) service =
        { service with
          deshreddedEntries := []
          entrySender :=
            { service.entrySender with
              sent := service.entrySender.sent ++ service.deshreddedEntries } } := by
  rcases service with ⟨proxy, pending, ch, subs⟩
  induction pending generalizing ch with
  | nil => simp
  | cons entry rest ih =>
      rw [List.length_cons, List.replicate_succ, List.foldl_cons]
      exact (ih (ch.send entry)).trans (by simp [Broadcast.send])

/-- The first call of a proxy pushes what the machine emits. -/
theorem exists_first_call (ledger : Ledger) (c : Call) :
    ∃ r, reconstructShreds ledger c ProxyState.initial = .ok r ∧
      r.deshreddedEntries = (Machine.call ledger Machine.initial c).emitted := by
  have hgood : ProxyState.initial.allShreds.Good := SlotMap.good_empty
  rcases @reconstructShredsNoRetain_refines ledger _ hgood c with ⟨r', hr', hgood', _, hmatch, _⟩
  rcases reconstructShreds_eq hr' hgood' with ⟨r, hr, _, _, hpushed, _⟩
  refine ⟨r, hr, ?_⟩
  rw [hpushed, hmatch.emitted, ProxyState.view_initial]

/-- One client subscribes, and then batches are processed and sent, each with the number of entries
that it decodes to. -/
def burst (batches : List (Call × Nat)) : List EntryAction :=
  .subscribeEntries :: batches.flatMap fun batch =>
    .reconstruct batch.1 :: List.replicate batch.2 .drain

/-- A batch is processed and sent when nothing is left of the one before. -/
theorem EntryService.foldl_batch {service : EntryService}
    (hopen : service.entrySender.isOpen = true) (hpending : service.deshreddedEntries = [])
    {c : Call} {r : CallResult}
    (hr : reconstructShreds ledger c service.proxy = .ok r) :
    (EntryAction.reconstruct c :: List.replicate r.deshreddedEntries.length EntryAction.drain).foldl
      (EntryService.step ledger) service =
        { service with
          proxy := r.state
          entrySender :=
            { service.entrySender with
              sent := service.entrySender.sent ++
                r.deshreddedEntries.map Deshredded.toPbEntry } } := by
  have hstep : service.step ledger (.reconstruct c) =
      { service with
        proxy := r.state
        deshreddedEntries := r.deshreddedEntries.map Deshredded.toPbEntry } := by
    simp [step, reconstruct, hopen, hpending, hr]
  have hlength : r.deshreddedEntries.length =
      (r.deshreddedEntries.map Deshredded.toPbEntry).length := (List.length_map _).symm
  rw [List.foldl_cons, hstep, hlength]
  refine (EntryService.foldl_drain _).trans ?_
  simp only [hpending]

/-- The batches of a burst are those of a sequential run, and all that this pushes is sent. -/
theorem EntryService.run_burst (capacity : Nat) {batches : List (Call × Nat)} {h : History}
    (hh : runCalls ledger (batches.map Prod.fst) = .ok h)
    (hsizes : h.results.map (fun r => r.deshreddedEntries.length) = batches.map Prod.snd) :
    EntryService.run ledger capacity (burst batches) =
      { proxy := h.state
        deshreddedEntries := []
        entrySender := ⟨capacity, h.pushed.map Deshredded.toPbEntry, true⟩
        subscriptions := [Subscription.new ⟨capacity, [], true⟩] } := by
  induction batches using List.reverseRecOn generalizing h with
  | nil =>
      obtain rfl := Except.ok.inj hh
      simp [burst, run, step, initial, subscribeEntries, History.initial, History.pushed]
  | append_singleton batches batch ih =>
      rw [List.map_append, List.map_singleton] at hh hsizes
      rcases runCalls_concat.mp hh with ⟨h₀, r, hh₀, hr, rfl⟩
      rw [List.map_append, List.map_singleton] at hsizes
      rcases List.append_inj' hsizes rfl with ⟨hsizes₀, hlast⟩
      have hlength : r.deshreddedEntries.length = batch.2 := List.singleton_inj.mp hlast
      have hsplit : burst (batches ++ [batch]) =
          burst batches ++ (.reconstruct batch.1 ::
            List.replicate r.deshreddedEntries.length .drain) := by
        simp [burst, hlength]
      have hold := ih hh₀ hsizes₀
      unfold run at hold ⊢
      rw [hsplit, List.foldl_append, hold, EntryService.foldl_batch rfl rfl hr]
      simp [History.pushed]

/-- The calls of a run push as many items as the machine emits. -/
theorem sizes_of_matches {results : List CallResult} {outcomes : List Outcome}
    (h : List.Forall₂ CallResult.Matches results outcomes) :
    results.map (fun r => r.deshreddedEntries.length) =
      outcomes.map fun o => o.emitted.length := by
  induction h with
  | nil => rfl
  | cons hhead _ ih => rw [List.map_cons, List.map_cons, ih, hhead.emitted]

/-! ## No gaps -/

/-- A subscription made at position `since` of the broadcast sequence. -/
structure Subscription.Inv (ch : Broadcast PbEntry) (since : Nat) (sub : Subscription) : Prop where
  since_le : since ≤ sub.entryReceiver
  le_sent : sub.entryReceiver ≤ ch.sent.length
  stream : sub.tx.connected = true →
    sub.received ++ sub.tx.items ++ sub.task.entry = ch.span since sub.entryReceiver
  drained : sub.tx.connected = false → sub.tx.items = []
  received : sub.received <+: ch.sent.drop since

namespace Subscription.Inv

theorem initial (ch : Broadcast PbEntry) :
    Subscription.Inv ch ch.sent.length (Subscription.new ch) where
  since_le := le_rfl
  le_sent := le_rfl
  stream := fun _ => (ch.span_self _).symm
  drained := fun h => by simp [Subscription.new, Queue.new] at h
  received := List.nil_prefix

/-- Broadcasting an entry only appends to what is to be received. -/
theorem drain (h : sub.Inv ch since) (entry : PbEntry) : sub.Inv (ch.send entry) since where
  since_le := h.since_le
  le_sent := h.le_sent.trans (by simp [Broadcast.send])
  stream := by
    intro hconn
    rw [Broadcast.span_send h.le_sent]
    exact h.stream hconn
  drained := h.drained
  received := h.received.trans (ch.drop_send_prefix entry since)

/-- Taking an entry moves the receiver by one position. -/
theorem recv (h : sub.Inv ch since) : (sub.recv ch).Inv ch since := by
  unfold Subscription.recv
  split
  · rename_i htask
    have hstream := h.stream
    rw [htask] at hstream
    split
    · rename_i entry hrecv
      have hcell := (Broadcast.recv_eq_message_iff.mp hrecv).1
      have hlt := (List.getElem?_eq_some_iff.mp hcell).1
      refine ⟨h.since_le.trans (Nat.le_succ _), hlt, ?_, h.drained, h.received⟩
      intro hconn
      rw [Broadcast.span_succ h.since_le hcell, ← hstream hconn]
      simp [ForwardTask.entry]
    · exact ⟨h.since_le, h.le_sent, hstream, h.drained, h.received⟩
    · exact ⟨h.since_le, h.le_sent, hstream, h.drained, h.received⟩
    · exact h
  · exact h

/-- Passing an entry on moves it from the task to the end of the queue. -/
theorem send (h : sub.Inv ch since) : sub.send.Inv ch since := by
  unfold Subscription.send
  split
  · rename_i entry htask
    have hstream := h.stream
    rw [htask] at hstream
    split
    · rename_i tx hsend
      rcases Queue.send_eq_accepted_iff.mp hsend with ⟨hconn, _, rfl⟩
      refine ⟨h.since_le, h.le_sent, ?_, ?_, h.received⟩
      · intro _
        rw [← hstream hconn]
        simp [ForwardTask.entry]
      · intro hgone
        rw [hconn] at hgone
        contradiction
    · exact h
    · rename_i hsend
      have hgone := Queue.send_eq_disconnected_iff.mp hsend
      refine ⟨h.since_le, h.le_sent, ?_, h.drained, h.received⟩
      intro hconn
      rw [hgone] at hconn
      contradiction
  · exact h

/-- Reading moves an entry from the front of the queue to the client. -/
theorem read (h : sub.Inv ch since) : sub.read.Inv ch since := by
  unfold Subscription.read
  split
  · rename_i entry items hitems
    have hconn : sub.tx.connected = true := by
      rw [← Bool.not_eq_false]
      intro hgone
      rw [h.drained hgone] at hitems
      contradiction
    have hstream := h.stream hconn
    rw [hitems] at hstream
    refine ⟨h.since_le, h.le_sent, ?_, ?_, ?_⟩
    · intro _
      rw [← hstream]
      simp
    · intro hgone
      rw [hconn] at hgone
      contradiction
    · refine List.IsPrefix.trans ?_ (ch.span_prefix since sub.entryReceiver)
      rw [← hstream]
      exact ⟨items ++ sub.task.entry, by simp⟩
  · exact h

/-- A client that leaves keeps what it received. -/
theorem disconnect (h : sub.Inv ch since) : sub.disconnect.Inv ch since where
  since_le := h.since_le
  le_sent := h.le_sent
  stream := fun hconn => by simp [Subscription.disconnect, Queue.disconnect] at hconn
  drained := fun _ => rfl
  received := h.received

/-- Every step keeps the prefix. -/
theorem of_step (h : sub.Inv ch since) (hstep : Subscription.Step i a ch sub ch' sub') :
    sub'.Inv ch' since := by
  cases hstep with
  | other => exact h
  | drain entry => exact h.drain entry
  | dropSender => exact ⟨h.since_le, h.le_sent, h.stream, h.drained, h.received⟩
  | recv => exact h.recv
  | send => exact h.send
  | read => exact h.read
  | disconnect => exact h.disconnect

end Subscription.Inv

/-- Every subscription was made at some point of the run, and keeps its invariant from there on. -/
theorem exists_subscription {actions : List EntryAction}
    (h : (EntryService.run ledger capacity actions).subscriptions[i]? = some sub) :
    ∃ before after, actions = before ++ EntryAction.subscribeEntries :: after ∧
      (EntryService.run ledger capacity before).subscriptions.length = i ∧
      sub.Inv (EntryService.run ledger capacity actions).entrySender
        (EntryService.run ledger capacity before).entrySender.sent.length := by
  induction actions using List.reverseRecOn generalizing sub with
  | nil => exact absurd h (by simp [EntryService.run, EntryService.initial])
  | append_singleton actions a ih =>
      rw [EntryService.run_concat] at h ⊢
      rcases EntryService.subscription_of_step h with ⟨old, hold, hstep⟩ | ⟨rfl, hi, hsame, rfl⟩
      · rcases ih hold with ⟨before, after, rfl, hlength, hinv⟩
        exact ⟨before, after ++ [a], by simp, hlength, hinv.of_step hstep⟩
      · refine ⟨actions, [], rfl, hi.symm, ?_⟩
        rw [hsame]
        exact Subscription.Inv.initial _

/-- In every run, what the client of a subscription has received is a prefix of the entries sent
after the subscription. -/
theorem received_prefix (ledger : Ledger) (capacity : Nat) (actions : List EntryAction) (i : Nat)
    (sub : Subscription)
    (h : (EntryService.run ledger capacity actions).subscriptions[i]? = some sub) :
    ∃ before after, actions = before ++ EntryAction.subscribeEntries :: after ∧
      (EntryService.run ledger capacity before).subscriptions.length = i ∧
      sub.received <+: (EntryService.run ledger capacity actions).entrySender.sent.drop
        (EntryService.run ledger capacity before).entrySender.sent.length := by
  rcases exists_subscription h with ⟨before, after, hactions, hlength, hinv⟩
  exact ⟨before, after, hactions, hlength, hinv.received⟩

/-- A client subscribes, and gets the entry of the only segment of slot 1. -/
def Sample.delivery : List EntryAction :=
  burst [(Sample.call [4], 1)] ++ [EntryAction.recv 0, EntryAction.send 0, EntryAction.read 0]

/-- A client that has received the one entry broadcast since it subscribed. -/
theorem received_prefix_sample :
    ∃ sub, (EntryService.run Ledger.sample 100 Sample.delivery).subscriptions[0]? = some sub ∧
      sub.received = [⟨1, [0]⟩] ∧
      ∃ before after, Sample.delivery = before ++ EntryAction.subscribeEntries :: after ∧
        (EntryService.run Ledger.sample 100 before).subscriptions.length = 0 ∧
        sub.received <+: (EntryService.run Ledger.sample 100 Sample.delivery).entrySender.sent.drop
          (EntryService.run Ledger.sample 100 before).entrySender.sent.length := by
  rcases runCalls_sim Ledger.sample [Sample.call [4]] with ⟨h, hh, _, hall⟩
  have hone : h.pushed.map Deshredded.toPbEntry = [⟨1, [0]⟩] := by
    rw [History.pushed, pushed_eq_emitted hall]
    decide +kernel
  have hsizes : h.results.map (fun r => r.deshreddedEntries.length) = [1] := by
    rw [sizes_of_matches hall]
    decide +kernel
  have hrun := @EntryService.run_burst Ledger.sample 100 [(Sample.call [4], 1)] h hh hsizes
  rw [hone] at hrun
  have hsub : (EntryService.run Ledger.sample 100 Sample.delivery).subscriptions[0]? =
      some ⟨1, .receiving, Queue.new clientQueueCapacity, [⟨1, [0]⟩]⟩ := by
    unfold EntryService.run Sample.delivery at *
    rw [List.foldl_append, hrun]
    rfl
  exact ⟨_, hsub, rfl, received_prefix Ledger.sample 100 Sample.delivery 0 _ hsub⟩

/-! ## The end of a stream -/

/-- A task that has ended, ended after its client or the sender. -/
def Subscription.EndsLast (ch : Broadcast PbEntry) (sub : Subscription) : Prop :=
  sub.task = .finished → sub.tx.connected = false ∨ ch.isOpen = false

/-- Along the run, tasks end only after their client or the sender. -/
def NeverCutOff (ledger : Ledger) (capacity : Nat) (actions : List EntryAction) : Prop :=
  ∀ earlier later, actions = earlier ++ later →
    ∀ sub ∈ (EntryService.run ledger capacity earlier).subscriptions,
      sub.EndsLast (EntryService.run ledger capacity earlier).entrySender

/-- Whenever a task looks for an entry while its client and the sender are there, no more entries
are unread than the broadcast channel keeps. -/
def NoBacklog (ledger : Ledger) (capacity : Nat) (actions : List EntryAction) : Prop :=
  ∀ earlier i later sub, actions = earlier ++ EntryAction.recv i :: later →
    (EntryService.run ledger capacity earlier).subscriptions[i]? = some sub →
    sub.task = .receiving → sub.tx.connected = true →
    (EntryService.run ledger capacity earlier).entrySender.isOpen = true →
    (EntryService.run ledger capacity earlier).entrySender.sent.length - sub.entryReceiver ≤
      capacity

theorem EntryService.capacity_step (service : EntryService) (a : EntryAction) :
    (EntryService.step ledger service a).entrySender.capacity =
      service.entrySender.capacity := by
  cases a with
  | reconstruct c =>
      simp only [step, reconstruct]
      split <;> rfl
  | drain =>
      simp only [step, drain]
      split <;> rfl
  | dropSender =>
      simp only [step, dropSender]
      split <;> rfl
  | subscribeEntries =>
      simp only [step, subscribeEntries]
      split <;> rfl
  | recv i => rfl
  | send i => rfl
  | read i => rfl
  | disconnect i => rfl

/-- The broadcast channel has one capacity along a run. -/
theorem EntryService.capacity_run (ledger : Ledger) (capacity : Nat) (actions : List EntryAction) :
    (EntryService.run ledger capacity actions).entrySender.capacity = capacity := by
  induction actions using List.reverseRecOn with
  | nil => rfl
  | append_singleton actions a ih => rw [run_concat, capacity_step, ih]

namespace Subscription.EndsLast

/-- A task that finds no backlog does not end before its peers. -/
theorem recv (h : sub.EndsLast ch)
    (hbacklog : sub.task = .receiving → sub.tx.connected = true → ch.isOpen = true →
      ch.sent.length - sub.entryReceiver ≤ ch.capacity) : (sub.recv ch).EndsLast ch := by
  unfold Subscription.recv
  split
  · rename_i htask
    split
    · exact fun hfinished => nomatch hfinished
    · rename_i hlagged
      intro _
      by_contra hpeers
      rw [not_or, Bool.not_eq_false, Bool.not_eq_false] at hpeers
      have hle := hbacklog htask hpeers.1 hpeers.2
      have hlt := Broadcast.recv_eq_lagged_iff.mp hlagged
      omega
    · rename_i hclosed
      exact fun _ => Or.inr (Broadcast.isOpen_of_recv_closed hclosed)
    · exact h
  · exact h

/-- Sending to a client ends a task only when the client is gone. -/
theorem send (h : sub.EndsLast ch) : sub.send.EndsLast ch := by
  unfold Subscription.send
  split
  · split
    · exact fun hfinished => nomatch hfinished
    · exact h
    · rename_i hgone
      exact fun _ => Or.inl (Queue.send_eq_disconnected_iff.mp hgone)
  · exact h

/-- A client that reads ends no task. -/
theorem read (h : sub.EndsLast ch) : sub.read.EndsLast ch := by
  unfold Subscription.read
  split
  · exact h
  · exact h

/-- A step without backlog ends no task before its peers. -/
theorem of_step (h : sub.EndsLast ch) (hstep : Subscription.Step i a ch sub ch' sub')
    (hbacklog : a = .recv i → sub.task = .receiving → sub.tx.connected = true →
      ch.isOpen = true → ch.sent.length - sub.entryReceiver ≤ ch.capacity) :
    sub'.EndsLast ch' := by
  cases hstep with
  | other => exact h
  | drain entry => exact h
  | dropSender => exact fun _ => Or.inr rfl
  | recv => exact h.recv (hbacklog rfl)
  | send => exact h.send
  | read => exact h.read
  | disconnect => exact fun _ => Or.inl rfl

end Subscription.EndsLast

/-- Without backlog, no task is cut off. -/
theorem NoBacklog.neverCutOff {actions : List EntryAction}
    (h : NoBacklog ledger capacity actions) : NeverCutOff ledger capacity actions := by
  intro earlier
  induction earlier using List.reverseRecOn with
  | nil => exact fun _ _ sub hsub => absurd hsub List.not_mem_nil
  | append_singleton earlier a ih =>
      intro later hactions sub hsub
      have hsplit : actions = earlier ++ a :: later := by simpa using hactions
      rcases List.mem_iff_getElem?.mp hsub with ⟨i, hi⟩
      rw [EntryService.run_concat] at hi ⊢
      rcases EntryService.subscription_of_step hi with ⟨old, hold, hstep⟩ | ⟨_, _, _, rfl⟩
      · refine (ih _ hsplit old (List.mem_of_getElem? hold)).of_step hstep ?_
        intro ha htask hconn hopen
        rw [EntryService.capacity_run]
        exact h earlier i later old (ha ▸ hsplit) hold htask hconn hopen
      · exact fun hfinished => nomatch hfinished

/-- A task that finds a backlog ends. -/
theorem NeverCutOff.noBacklog {actions : List EntryAction}
    (h : NeverCutOff ledger capacity actions) : NoBacklog ledger capacity actions := by
  intro earlier i later sub hactions hi htask hconn hopen
  by_contra hbacklog
  have hlagged : (EntryService.run ledger capacity earlier).entrySender.recv sub.entryReceiver =
      .lagged := by
    rw [Broadcast.recv_eq_lagged_iff, EntryService.capacity_run]
    omega
  have hends : sub.recv (EntryService.run ledger capacity earlier).entrySender =
      { sub with task := .finished } := by
    simp [Subscription.recv, htask, hlagged]
  have hmem : { sub with task := .finished } ∈
      (EntryService.run ledger capacity (earlier ++ [EntryAction.recv i])).subscriptions := by
    rw [EntryService.run_concat, ← hends]
    apply List.mem_of_getElem? (i := i)
    simp [EntryService.step, EntryService.modify, hi]
  have hpeers := h (earlier ++ [EntryAction.recv i]) later (by simp [hactions]) _ hmem rfl
  rw [EntryService.run_concat] at hpeers
  rcases hpeers with hgone | hclosed
  · rw [hconn] at hgone
    contradiction
  · exact absurd (hclosed.symm.trans hopen) Bool.false_ne_true

/-- In every run, tasks end only after their client or the sender if and only if no task of a
connected client finds more unread entries than the broadcast channel keeps. -/
theorem never_cut_off_iff (ledger : Ledger) (capacity : Nat) (actions : List EntryAction) :
    NeverCutOff ledger capacity actions ↔ NoBacklog ledger capacity actions :=
  ⟨NeverCutOff.noBacklog, NoBacklog.neverCutOff⟩

/-- Batches that push more items than the broadcast channel keeps end the stream of a client whose
task was not scheduled in between. -/
theorem not_neverCutOff_of_burst {batches : List (Call × Nat)} {h : History}
    (hh : runCalls ledger (batches.map Prod.fst) = .ok h)
    (hsizes : h.results.map (fun r => r.deshreddedEntries.length) = batches.map Prod.snd)
    (hlength : capacity < h.pushed.length) :
    ¬ NeverCutOff ledger capacity (burst batches ++ [EntryAction.recv 0]) := by
  intro hnever
  have hrun := EntryService.run_burst capacity hh hsizes
  have hle := hnever.noBacklog (burst batches) 0 [] (Subscription.new ⟨capacity, [], true⟩) rfl
    (by rw [hrun]; rfl) rfl rfl (by rw [hrun])
  rw [hrun] at hle
  simp only [List.length_map, Subscription.new, List.length_nil, Nat.sub_zero] at hle
  omega

namespace Burst

/-- Every packet of one byte is the only data shred of the slot with that number. -/
def parse : Bytes → Option Shred
  | [slot] => some (Sample.data slot.toNat 0 0 true)
  | _ => none

theorem parse_admitted {bytes : Bytes} {s : Shred} (h : parse bytes = some s) : s.Admitted := by
  unfold parse at h
  split at h
  · obtain rfl := Option.some.inj h
    exact (by decide : 0 ≤ 0 ∧ 0 < maxDataShredsPerSlot)
  · contradiction

end Burst

/-- A ledger in which a batch of packets decodes to as many entries. -/
def Ledger.burst : Ledger where
  parse := Burst.parse
  getData := some
  recover := fun _ => none
  deshred := fun payloads => some payloads.flatten
  deserialize := fun _ => some []
  parse_admitted := Burst.parse_admitted
  recover_admitted := fun _ _ hr _ => nomatch hr

namespace Burst

/-- A batch with one packet for each of `n` slots from `start` on. -/
def call (start n : Nat) : Call := Sample.call ((List.range' start n).map UInt8.ofNat)

/-- Two full batches of a listener, and one packet more. -/
def batches : List (Call × Nat) := [(call 0 64, 64), (call 64 64, 64), (call 128 1, 1)]

end Burst

/-- Three batches of at most 64 packets, with 129 entries in all, end the stream of a connected
client, whether the broadcast channel keeps 100 messages or that number rounded up to a power of
two. -/
theorem burst_ends_stream :
    ¬ NeverCutOff Ledger.burst 100 (burst Burst.batches ++ [EntryAction.recv 0]) ∧
      ¬ NeverCutOff Ledger.burst 128 (burst Burst.batches ++ [EntryAction.recv 0]) := by
  rcases runCalls_sim Ledger.burst (Burst.batches.map Prod.fst) with ⟨h, hh, _, hall⟩
  have hsizes : h.results.map (fun r => r.deshreddedEntries.length) =
      Burst.batches.map Prod.snd := by
    rw [sizes_of_matches hall]
    decide +kernel
  have hlength : h.pushed.length = 129 := by
    rw [History.pushed, List.length_flatMap, hsizes]
    rfl
  exact ⟨not_neverCutOff_of_burst hh hsizes (by omega),
    not_neverCutOff_of_burst hh hsizes (by omega)⟩

end ShredstreamProxy
