import ShredstreamProxy.Shutdown.Protocol

/-!
# What shutting down guarantees

Messages are neither lost nor made: what is in the channel, what the signal handler still has to
send and what threads have taken are what the signals and the panics account for. A thread that has
taken a message ends, so 256 messages are enough for 256 threads, and once they are sent no thread
can go on for more than four steps. Two things are left that can keep the process alive: a thread
that waits for another machine, and the panic hook, which waits for room in a channel that nobody
may empty any more.

Main results:

- Theorem {lit}`shutdown_messages`: conservation of messages, and no message before the exit flag.
- Theorem {lit}`main_waits_for_all`: when the main thread returns, all joined threads have ended.
- Theorem {lit}`shutdown_ends`: after a signal every thread takes at most four more steps.
- Theorem {lit}`Shutdown.stuck_of_awaitsAnswer`: when the process waits for another machine.
- Theorem {lit}`panic_hook_hangs`: when the process never ends.
-/

namespace ShredstreamProxy

open Family

/-! ## Counting -/

namespace WorkerStage

/-- The thread is in its loop. -/
def inLoop : WorkerStage → Bool
  | .checking | .connecting | .inner | .waiting | .working | .asking => true
  | _ => false

/-- Steps that a thread can still take once the exit flag is set and there are messages. -/
def rank : WorkerStage → Nat
  | .waiting => 4
  | .working | .asking | .connecting => 3
  | .panicking | .inner => 2
  | .checking | .rechecking => 1
  | .stopped _ => 0

/-- No thread is more than four steps away from its end. -/
theorem rank_le (stage : WorkerStage) : stage.rank ≤ 4 := by
  cases stage <;> simp [rank]

end WorkerStage

namespace Worker

/-- The number of threads with a given property. -/
def tally (g : Worker → Bool) (workers : List Worker) : Nat :=
  (workers.map fun w => (g w).toNat).sum

/-- What happens to the number when one thread moves. -/
theorem tally_set {workers : List Worker} {i : Nat} {w : Worker} (hi : workers[i]? = some w)
    (g : Worker → Bool) (w' : Worker) :
    tally g (workers.set i w') + (g w).toNat = tally g workers + (g w').toNat := by
  rcases exists_sum_map_set hi fun w => (g w).toNat with ⟨rest, hsum, hset⟩
  unfold tally
  rw [hsum, hset]
  omega

/-- The number is zero when no thread has the property. -/
theorem tally_eq_zero {workers : List Worker} {g : Worker → Bool}
    (h : ∀ w ∈ workers, g w = false) : tally g workers = 0 := by
  apply List.sum_eq_zero
  intro n hn
  rcases List.mem_map.mp hn with ⟨w, hw, rfl⟩
  rw [h w hw]
  rfl

/-- The thread has taken a message. -/
def received (w : Worker) : Bool := w.stage.received

/-- A thread in its loop has taken no message. -/
theorem received_of_undisturbed {w : Worker} (h : w.stage.undisturbed = true) :
    w.received = false := by
  unfold received
  cases hstage : w.stage with
  | rechecking =>
      rw [hstage] at h
      contradiction
  | stopped reason =>
      rw [hstage] at h
      cases reason <;> first | rfl | contradiction
  | _ => rfl

/-- The thread is in its loop and may still take a message. -/
def claims (w : Worker) : Bool := w.thread.takesMessages && w.stage.inLoop

end Worker

namespace ShutdownEvent

/-- The message of a panic hook. -/
def isHookSend : ShutdownEvent → Bool
  | .worker _ .hookSend => true
  | .mainHookSend => true
  | _ => false

def isSignal : ShutdownEvent → Bool
  | .signal => true
  | _ => false

/-- A step of thread `i`. -/
def isStepOf (i : Nat) : ShutdownEvent → Bool
  | .worker j _ => j = i
  | _ => false

end ShutdownEvent

/-! ## Conservation of messages -/

namespace Worker.Step

variable {exit exit' : Bool} {messages n : Nat} {w : Worker} {e : WorkerEvent} {stage : WorkerStage}

/-- The exit flag is never reset. -/
theorem exit_eq (h : w.Step exit messages e exit' n stage) (hexit : exit = true) :
    exit' = true := by
  cases h <;> first | exact hexit | rfl

/-- A thread takes one message from the channel, or puts one in, or leaves it alone.  A thread that
has taken one goes on only if the exit flag is not set. -/
theorem conserved (h : w.Step exit messages e exit' n stage)
    (hquiet : exit = false → w.received = false) (i : Nat) :
    n + stage.received.toNat =
      messages + w.received.toNat + (ShutdownEvent.worker i e).isHookSend.toNat := by
  unfold received at hquiet ⊢
  cases h with
  | exits hstage | leave hstage | ends hstage | falls hstage =>
      rw [hstage]
      rfl
  | panic hstage => rcases hstage with hstage | hstage <;> rw [hstage] <;> rfl
  | waits hstage _ _ hnext =>
      have hafter : stage.received = false := by rcases hnext with rfl | rfl <;> rfl
      have hbefore : w.stage.received = false := by
        rcases hstage with hstage | ⟨hstage | hstage, hexit⟩
        · rw [hstage]
          rfl
        · exact hquiet hexit
        · rw [hstage]
          rfl
      rw [hbefore, hafter]
      rfl
  | wakes he hstage hnext =>
      have hsend : (ShutdownEvent.worker i e).isHookSend = false := by
        cases e <;> first | rfl | exact absurd rfl he
      rw [hstage, hsend]
      rcases hnext with rfl | rfl <;> rfl
  | returns he hstage hnext =>
      have hsend : (ShutdownEvent.worker i e).isHookSend = false := by
        cases e <;> first | rfl | exact absurd rfl he
      have hbefore : w.stage.received = false := by
        rcases hstage with hstage | hstage | hstage <;> rw [hstage] <;> rfl
      rw [hbefore, hsend]
      rcases hnext with rfl | rfl <;> rfl
  | takes hn he htakes hstage =>
      have hbefore : w.stage.received = false ∧
          (ShutdownEvent.worker i e).isHookSend = false := by
        rcases he with ⟨rfl, hw⟩ | ⟨rfl, hw⟩ <;> rw [hw] <;> exact ⟨rfl, rfl⟩
      have hafter : stage.received = true := by
        rcases hstage with rfl | ⟨rfl, _⟩ <;> rfl
      rw [hbefore.1, hbefore.2, hafter, hn]
      rfl
  | hookSend hstage =>
      rw [hstage]
      rfl

/-- A thread that has something to send waits for room. -/
theorem room (h : w.Step exit messages e exit' n stage) (hroom : messages ≤ maxShutdownMessages) :
    n ≤ maxShutdownMessages := by
  cases h with
  | takes hn => omega
  | hookSend _ hlt => exact hlt
  | _ => exact hroom

/-- Only some threads take messages. -/
theorem takesMessages (h : w.Step exit messages e exit' n stage)
    (hw : w.received = true → w.thread.takesMessages = true) (hreceived : stage.received = true) :
    w.thread.takesMessages = true := by
  cases h with
  | takes _ _ htakes => exact htakes
  | ends hstage => exact hw (by rw [received, hstage]; rfl)
  | waits _ _ _ hnext | wakes _ _ hnext | returns _ _ hnext =>
      rcases hnext with rfl | rfl <;> contradiction
  | _ => contradiction

/-- Before the exit flag is set, a thread takes nothing and stays in its loop, or leaves it. -/
theorem quiet (h : w.Step exit messages e exit' n stage) (hexit : exit' = false)
    (hmessages : messages = 0) (hw : w.stage.undisturbed = true) :
    n = 0 ∧ stage.undisturbed = true := by
  cases h with
  | takes hn => omega
  | panic => contradiction
  | exits _ _ hset | falls _ hset =>
      rw [hset] at hexit
      contradiction
  | hookSend hstage | ends hstage =>
      rw [hstage] at hw
      contradiction
  | waits _ _ _ hnext | wakes _ _ hnext | returns _ _ hnext =>
      exact ⟨hmessages, by rcases hnext with rfl | rfl <;> rfl⟩
  | leave => exact ⟨hmessages, rfl⟩

end Worker.Step

namespace Shutdown

variable {s s' : Shutdown} {joined detached : List Thread} {past events : List ShutdownEvent}
  {e : ShutdownEvent}

/-- The threads that have taken a message. -/
def taken (s : Shutdown) : Nat := Worker.tally Worker.received s.workers

/-- The signals that the handler has got. -/
def signals (events : List ShutdownEvent) : Nat := events.countP ShutdownEvent.isSignal

/-- The messages that panic hooks have sent. -/
def hookSends (events : List ShutdownEvent) : Nat := events.countP ShutdownEvent.isHookSend

theorem signals_concat (past : List ShutdownEvent) (e : ShutdownEvent) :
    signals (past ++ [e]) = signals past + e.isSignal.toNat := by
  cases h : e.isSignal <;> simp [signals, List.countP_append, h]

theorem hookSends_concat (past : List ShutdownEvent) (e : ShutdownEvent) :
    hookSends (past ++ [e]) = hookSends past + e.isHookSend.toNat := by
  cases h : e.isHookSend <;> simp [hookSends, List.countP_append, h]

/-- Every message is accounted for, and nothing is sent before the exit flag is set. -/
structure Accounts (past : List ShutdownEvent) (s : Shutdown) : Prop where
  conserved : s.shutdownReceiver + s.notifier + s.taken =
    maxShutdownMessages * signals past + hookSends past
  room : s.shutdownReceiver ≤ maxShutdownMessages
  takers : ∀ w ∈ s.workers, w.received = true → w.thread.takesMessages = true
  quiet : s.exit = false → s.shutdownReceiver = 0 ∧ s.notifier = 0 ∧ signals past = 0 ∧
    ∀ w ∈ s.workers, w.stage.undisturbed = true
  aborting : s.main = .panicking → s.exit = true

namespace Accounts

theorem initial (joined detached : List Thread) :
    Accounts [] (Shutdown.initial joined detached) := by
  have hall : ∀ w ∈ (Shutdown.initial joined detached).workers, w.stage.undisturbed = true := by
    intro w hw
    rcases List.mem_map.mp hw with ⟨thread, _, rfl⟩
    rfl
  refine ⟨?_, Nat.zero_le _, ?_, fun _ => ⟨rfl, rfl, rfl, hall⟩, by simp [Shutdown.initial]⟩
  · rw [taken, Worker.tally_eq_zero fun w hw => Worker.received_of_undisturbed (hall w hw)]
    rfl
  · intro w hw hreceived
    rw [Worker.received_of_undisturbed (hall w hw)] at hreceived
    contradiction

/-- A step of a thread keeps the account of the messages. -/
theorem worker {i : Nat} {w : Worker} {e : WorkerEvent} {exit : Bool} {n : Nat}
    {stage : WorkerStage} (h : Accounts past s) (hi : s.workers[i]? = some w)
    (hstep : w.Step s.exit s.shutdownReceiver e exit n stage) :
    Accounts (past ++ [.worker i e])
      { s with exit, shutdownReceiver := n, workers := s.workers.set i { w with stage } } := by
  have hw := List.mem_of_getElem? hi
  have hreceived : s.exit = false → w.received = false :=
    fun hexit => Worker.received_of_undisturbed ((h.quiet hexit).2.2.2 w hw)
  have hmove := hstep.conserved hreceived i
  refine ⟨?_, hstep.room h.room, ?_, ?_, ?_⟩
  · have hset := Worker.tally_set hi Worker.received { w with stage }
    have hold := h.conserved
    have hreceived : (Worker.received { w with stage }) = stage.received := rfl
    rw [hreceived] at hset
    rw [signals_concat, hookSends_concat]
    simp only [taken, ShutdownEvent.isSignal, Bool.toNat_false, Nat.add_zero] at hold ⊢
    omega
  · exact forall_mem_set h.takers fun hreceived => hstep.takesMessages (h.takers w hw) hreceived
  · intro hexit
    have hbefore : s.exit = false := by
      cases hs : s.exit with
      | false => rfl
      | true => exact (hstep.exit_eq hs).symm.trans hexit
    rcases h.quiet hbefore with ⟨hmessages, hnotifier, hsignals, hall⟩
    have hquiet := hstep.quiet hexit hmessages (hall w hw)
    refine ⟨hquiet.1, hnotifier, ?_, forall_mem_set hall hquiet.2⟩
    rw [signals_concat, hsignals]
    rfl
  · exact fun hmain => hstep.exit_eq (h.aborting hmain)

/-- Every step keeps the account of the messages. -/
theorem of_step (h : Accounts past s) (hstep : Step s e s') : Accounts (past ++ [e]) s' := by
  have hold := h.conserved
  cases hstep with
  | worker hi hstep => exact h.worker hi hstep
  | signal hidle =>
      refine ⟨?_, h.room, h.takers, fun hexit => absurd hexit (by simp), fun _ => rfl⟩
      rw [signals_concat, hookSends_concat]
      simp only [taken, ShutdownEvent.isSignal, ShutdownEvent.isHookSend, Bool.toNat_true,
        Bool.toNat_false, Nat.mul_add] at hold ⊢
      omega
  | notify hn hroom =>
      refine ⟨?_, hroom, h.takers, ?_, h.aborting⟩
      · rw [signals_concat, hookSends_concat]
        simp only [taken, ShutdownEvent.isSignal, ShutdownEvent.isHookSend,
          Bool.toNat_false, Nat.add_zero] at hold ⊢
        omega
      · intro hexit
        have hnotifier := (h.quiet hexit).2.1
        omega
  | returns | joins =>
      refine ⟨?_, h.room, h.takers, ?_, by simp⟩
      · rw [signals_concat, hookSends_concat]
        exact hold
      · intro hexit
        rw [signals_concat]
        exact h.quiet hexit
  | joinPanics =>
      refine ⟨?_, h.room, h.takers, fun hexit => absurd hexit (by simp), fun _ => rfl⟩
      rw [signals_concat, hookSends_concat]
      exact hold
  | mainHookSend hmain hroom =>
      refine ⟨?_, hroom, h.takers, ?_, by simp⟩
      · rw [signals_concat, hookSends_concat]
        simp only [taken, ShutdownEvent.isSignal, ShutdownEvent.isHookSend, Bool.toNat_true,
          Bool.toNat_false, Nat.add_zero] at hold ⊢
        omega
      · intro hexit
        rw [h.aborting hmain] at hexit
        contradiction

/-- Every run keeps the account of the messages. -/
theorem of_run (h : run joined detached events = some s) : Accounts events s :=
  EventRun.run_invariant (Accounts.initial joined detached)
    (fun _ _ _ _ hI hlast => hI.of_step (step_cases hlast).2) h

end Accounts

end Shutdown

open Shutdown

/-- In every run, the messages in the channel, those that the signal handler still has to send and
those that threads have taken are 256 for each signal and one for each panic hook that got through.
No thread takes two. As long as the exit flag is not set there is no message, and every thread is in
its loop or left it for a reason of its own. -/
theorem shutdown_messages (joined detached : List Thread) (events : List ShutdownEvent)
    (s : Shutdown) (h : Shutdown.run joined detached events = some s) :
    s.shutdownReceiver + s.notifier + s.taken = 256 * signals events + hookSends events ∧
      s.shutdownReceiver ≤ 256 ∧
      (s.exit = false → s.shutdownReceiver = 0 ∧ s.notifier = 0 ∧
        ∀ w ∈ s.workers, w.stage.undisturbed = true) := by
  have hall := Accounts.of_run h
  refine ⟨hall.conserved, hall.room, ?_⟩
  intro hexit
  rcases hall.quiet hexit with ⟨hmessages, hnotifier, _, hworkers⟩
  exact ⟨hmessages, hnotifier, hworkers⟩

namespace Sample

/-- The threads of a proxy with one socket that only forwards. -/
def forwardOnly : ThreadArgs where
  shredstream := false
  grpcServicePort := none
  sockets := 1
  useDiscoveryService := false
  prometheusBindAddr := false

/-- A signal, of which one message has been sent, and taken by the forwarder. -/
def signalEvents : List ShutdownEvent :=
  [.worker 0 .check, .signal, .notify, .worker 0 .shutdown]

end Sample

/-- A signal of which a forwarder has taken the first message. -/
theorem shutdown_messages_sample :
    ∃ s, Shutdown.run Sample.forwardOnly.threadHandles Sample.forwardOnly.detached
        Sample.signalEvents = some s ∧
      s.taken = 1 ∧ s.notifier = 255 ∧
      s.shutdownReceiver + s.notifier + s.taken =
        256 * signals Sample.signalEvents + hookSends Sample.signalEvents ∧
      s.shutdownReceiver ≤ 256 ∧
      (s.exit = false → s.shutdownReceiver = 0 ∧ s.notifier = 0 ∧
        ∀ w ∈ s.workers, w.stage.undisturbed = true) :=
  ⟨_, rfl, rfl, rfl,
    shutdown_messages Sample.forwardOnly.threadHandles Sample.forwardOnly.detached
      Sample.signalEvents _ rfl⟩

/-! ## The main thread -/

namespace Worker.Step

variable {exit exit' : Bool} {messages n : Nat} {w : Worker} {e : WorkerEvent} {stage : WorkerStage}

/-- A thread that has ended takes no step. -/
theorem isStopped_eq (h : w.Step exit messages e exit' n stage) : w.stage.isStopped = false := by
  cases h with
  | exits hstage | ends hstage | falls hstage | wakes _ hstage | leave hstage | hookSend hstage =>
      rw [hstage]
      rfl
  | panic hstage => rcases hstage with hstage | hstage <;> rw [hstage] <;> rfl
  | returns _ hstage => rcases hstage with hstage | hstage | hstage <;> rw [hstage] <;> rfl
  | waits hstage =>
      rcases hstage with hstage | ⟨hstage | hstage, _⟩ <;> rw [hstage] <;> rfl
  | takes _ he => rcases he with ⟨_, hstage⟩ | ⟨_, hstage⟩ <;> rw [hstage] <;> rfl

end Worker.Step

namespace Shutdown

variable {s s' : Shutdown} {joined detached : List Thread} {past events : List ShutdownEvent}
  {e : ShutdownEvent}

/-- Thread `i` has ended without a panic. -/
def EndedWell (s : Shutdown) (i : Nat) : Prop :=
  ∃ w, s.workers[i]? = some w ∧ w.stage.isStopped = true ∧ w.stage.panics = false

/-- The main thread has joined the threads before its handle. -/
structure Joined (joined detached : List Thread) (s : Shutdown) : Prop where
  threads : s.workers.map Worker.thread = joined ++ detached
  threadHandles : s.threadHandles = joined.length
  handle_le : ∀ handle, s.main = .joining handle → handle ≤ s.threadHandles
  ended : ∀ handle, s.main = .joining handle → ∀ i < handle, s.EndedWell i
  returned : s.main = .returned → ∀ i < s.threadHandles, s.EndedWell i
  aborted : s.main = .panicking ∨ s.main = .aborted → ∃ w ∈ s.workers, w.stage = .stopped .panic
  left : ∀ w ∈ s.workers, w.stage = .stopped .left → w.thread.mayLeave = true

namespace Joined

theorem initial (joined detached : List Thread) :
    Joined joined detached (Shutdown.initial joined detached) := by
  constructor
  · simp [Shutdown.initial, Function.comp_def]
  · rfl
  · intro handle hmain
    obtain rfl : 0 = handle := by simpa [Shutdown.initial] using hmain
    exact Nat.zero_le _
  · intro handle hmain i hi
    obtain rfl : 0 = handle := by simpa [Shutdown.initial] using hmain
    exact absurd hi (Nat.not_lt_zero i)
  · intro hmain
    exact absurd hmain (by simp [Shutdown.initial])
  · intro hmain
    exact absurd hmain (by simp [Shutdown.initial])
  · intro w hw hleft
    rcases List.mem_map.mp hw with ⟨thread, _, rfl⟩
    contradiction

/-- A step of a thread keeps what the main thread knows. -/
theorem worker {i : Nat} {w : Worker} {e : WorkerEvent} {exit : Bool} {n : Nat}
    {stage : WorkerStage} (h : Joined joined detached s) (hi : s.workers[i]? = some w)
    (hstep : w.Step s.exit s.shutdownReceiver e exit n stage) :
    Joined joined detached
      { s with exit, shutdownReceiver := n, workers := s.workers.set i { w with stage } } := by
  -- a thread that has ended is another one
  have hother : ∀ (k : Nat) (w' : Worker), s.workers[k]? = some w' → w'.stage.isStopped = true →
      (s.workers.set i { w with stage })[k]? = some w' := by
    intro k w' hk hstopped
    have hne : i ≠ k := by
      rintro rfl
      rw [hi, Option.some.injEq] at hk
      subst hk
      rw [hstep.isStopped_eq] at hstopped
      contradiction
    rw [List.getElem?_set_ne hne, hk]
  have hended : ∀ k, s.EndedWell k → EndedWell
      { s with exit, shutdownReceiver := n, workers := s.workers.set i { w with stage } } k := by
    rintro k ⟨w', hk, hstopped, hpanics⟩
    exact ⟨w', hother k w' hk hstopped, hstopped, hpanics⟩
  refine ⟨?_, h.threadHandles, h.handle_le, ?_, ?_, ?_, ?_⟩
  · rw [← h.threads, List.map_set]
    apply List.ext_getElem?
    intro k
    rw [List.getElem?_set]
    split
    · rename_i hik
      subst hik
      split
      · rw [List.getElem?_map, hi]
        rfl
      · rename_i hlt
        exact (List.getElem?_eq_none_iff.mpr (by simpa using hlt)).symm
    · rfl
  · exact fun handle hmain k hk => hended k (h.ended handle hmain k hk)
  · exact fun hmain k hk => hended k (h.returned hmain k hk)
  · intro hmain
    rcases h.aborted hmain with ⟨w', hw', hpanic⟩
    rcases List.mem_iff_getElem?.mp hw' with ⟨k, hk⟩
    exact ⟨w', List.mem_of_getElem? (hother k w' hk (by rw [hpanic]; rfl)), hpanic⟩
  · apply forall_mem_set h.left
    intro hleft
    cases hstep with
    | leave _ hleave => exact hleave
    | takes _ _ _ hstage =>
        rcases hstage with rfl | ⟨rfl, _⟩
        · exact absurd hleft (by simp)
        · exact absurd hleft (by simp)
    | waits _ _ _ hnext | wakes _ _ hnext | returns _ _ hnext =>
        rcases hnext with rfl | rfl
        · exact absurd hleft (by simp)
        · exact absurd hleft (by simp)
    | _ => exact absurd hleft (by simp)

/-- Every step keeps what the main thread knows. -/
theorem of_step (h : Joined joined detached s) (hstep : Step s e s') :
    Joined joined detached s' := by
  cases hstep with
  | worker hi hstep => exact h.worker hi hstep
  | signal => exact ⟨h.threads, h.threadHandles, h.handle_le, h.ended, h.returned, h.aborted,
      h.left⟩
  | notify => exact ⟨h.threads, h.threadHandles, h.handle_le, h.ended, h.returned, h.aborted,
      h.left⟩
  | returns hmain =>
      refine ⟨h.threads, h.threadHandles, by simp, by simp, fun _ => ?_, by simp, h.left⟩
      exact h.ended _ hmain
  | @joins handle w hmain hne hw hstopped hpanics =>
      have hlt := lt_of_le_of_ne (h.handle_le handle hmain) hne
      refine ⟨h.threads, h.threadHandles, ?_, ?_, by simp, by simp, h.left⟩
      · rintro next hnext
        obtain rfl : handle + 1 = next := by simpa using hnext
        exact hlt
      · rintro next hnext i hi
        obtain rfl : handle + 1 = next := by simpa using hnext
        rcases Nat.lt_succ_iff_lt_or_eq.mp hi with hi | rfl
        · exact h.ended handle hmain i hi
        · exact ⟨w, hw, hstopped, hpanics⟩
  | joinPanics hmain hw hstage =>
      exact ⟨h.threads, h.threadHandles, by simp, by simp, by simp,
        fun _ => ⟨_, List.mem_of_getElem? hw, hstage⟩, h.left⟩
  | mainHookSend hmain =>
      exact ⟨h.threads, h.threadHandles, by simp, by simp, by simp,
        fun _ => h.aborted (Or.inl hmain), h.left⟩

/-- Every run keeps what the main thread knows. -/
theorem of_run (h : run joined detached events = some s) : Joined joined detached s :=
  EventRun.run_invariant (I := fun _ s => Joined joined detached s) (Joined.initial joined detached)
    (fun _ _ _ _ hI hlast => hI.of_step (step_cases hlast).2) h

end Joined

/-- A joined thread, by its handle. -/
theorem Joined.thread_eq (h : Joined joined detached s) {i : Nat} {w : Worker} {thread : Thread}
    (hw : s.workers[i]? = some w) (hi : joined[i]? = some thread) : w.thread = thread := by
  have hthread : (s.workers.map Worker.thread)[i]? = some w.thread := by
    rw [List.getElem?_map, hw]
    rfl
  rw [h.threads, List.getElem?_append_left (List.getElem?_eq_some_iff.mp hi).1, hi] at hthread
  exact (Option.some.inj hthread).symm

end Shutdown

/-- In every run, when the main thread has returned, all threads that it joins have ended without a
panic; if one of them never leaves its loop by itself, the exit flag is set.  The main thread aborts
only if the flag is set and a thread has panicked. -/
theorem main_waits_for_all (joined detached : List Thread) (events : List ShutdownEvent)
    (s : Shutdown) (h : Shutdown.run joined detached events = some s) :
    (s.main = .returned → (∀ i < joined.length, s.EndedWell i) ∧
      ((∃ thread ∈ joined, thread.mayLeave = false) → s.exit = true)) ∧
    (s.main = .aborted → s.exit = true ∧ ∃ w ∈ s.workers, w.stage = .stopped .panic) := by
  have hjoined := Joined.of_run h
  have haccounts := Accounts.of_run h
  have hundisturbed : s.exit ≠ true → ∀ w ∈ s.workers, w.stage.undisturbed = true :=
    fun hexit => (haccounts.quiet (by simpa using hexit)).2.2.2
  constructor
  · intro hmain
    have hended := hjoined.returned hmain
    rw [hjoined.threadHandles] at hended
    refine ⟨hended, ?_⟩
    rintro ⟨thread, hthread, hstays⟩
    by_contra hexit
    rcases List.mem_iff_getElem?.mp hthread with ⟨i, hi⟩
    rcases hended i (List.getElem?_eq_some_iff.mp hi).1 with ⟨w, hw, hstopped, _⟩
    have hmem := List.mem_of_getElem? hw
    have hquiet := hundisturbed hexit w hmem
    have hleft : w.stage = .stopped .left := by
      cases hstage : w.stage with
      | stopped reason =>
          rw [hstage] at hquiet
          cases reason <;> first | rfl | contradiction
      | _ =>
          rw [hstage] at hstopped
          contradiction
    have hleave := hjoined.left w hmem hleft
    rw [hjoined.thread_eq hw hi, hstays] at hleave
    contradiction
  · intro hmain
    rcases hjoined.aborted (Or.inr hmain) with ⟨w, hw, hpanic⟩
    refine ⟨?_, w, hw, hpanic⟩
    by_contra hexit
    have hquiet := hundisturbed hexit w hw
    rw [hpanic] at hquiet
    contradiction

/-- After a signal the threads end, and so does the main thread. -/
def Sample.returnEvents : List ShutdownEvent :=
  signalEvents ++ [.worker 1 .check, .worker 2 .check, .join, .join, .join, .join]

/-- A run in which all threads end and the main thread returns. -/
theorem main_waits_for_all_sample :
    ∃ s, Shutdown.run Sample.forwardOnly.threadHandles Sample.forwardOnly.detached
        Sample.returnEvents = some s ∧ s.main = .returned ∧
      (s.main = .returned →
        (∀ i < Sample.forwardOnly.threadHandles.length, s.EndedWell i) ∧
        ((∃ thread ∈ Sample.forwardOnly.threadHandles, thread.mayLeave = false) →
          s.exit = true)) ∧
      (s.main = .aborted → s.exit = true ∧ ∃ w ∈ s.workers, w.stage = .stopped .panic) :=
  ⟨_, rfl, rfl,
    main_waits_for_all Sample.forwardOnly.threadHandles Sample.forwardOnly.detached
      Sample.returnEvents _ rfl⟩

/-! ## Termination -/

namespace Worker.Step

variable {exit exit' : Bool} {messages n : Nat} {w : Worker} {e : WorkerEvent} {stage : WorkerStage}

/-- A thread that may take a message uses up its claim together with the message. -/
theorem claims_le (h : w.Step exit messages e exit' n stage) (hexit : exit = true) :
    messages + (Worker.claims { w with stage }).toNat ≤ n + w.claims.toNat := by
  unfold Worker.claims
  cases h with
  | exits hstage | ends hstage | leave hstage | falls hstage | hookSend hstage =>
      rw [hstage]
      simp [WorkerStage.inLoop]
  | panic hstage => rcases hstage with hstage | hstage <;> simp [hstage, WorkerStage.inLoop]
  | waits hstage _ _ hnext =>
      rcases hstage with hstage | ⟨_, hnot⟩
      · rcases hnext with rfl | rfl <;> simp [hstage, WorkerStage.inLoop]
      · rw [hexit] at hnot
        contradiction
  | wakes _ hstage hnext =>
      rcases hnext with rfl | rfl <;> simp [hstage, WorkerStage.inLoop]
  | returns _ hstage hnext =>
      have hbefore : w.stage.inLoop = true := by
        rcases hstage with hstage | hstage | hstage <;> rw [hstage] <;> rfl
      have hafter : stage.inLoop = true := by rcases hnext with rfl | rfl <;> rfl
      simp [hbefore, hafter]
  | takes hn he htakes hstage =>
      have hbefore : w.stage.inLoop = true := by
        rcases he with ⟨_, hw⟩ | ⟨_, hw⟩ <;> rw [hw] <;> rfl
      have hafter : stage.inLoop = false := by
        rcases hstage with rfl | ⟨rfl, _⟩ <;> rfl
      simp [hbefore, hafter, htakes, hn]

/-- With the exit flag set and enough messages, every step of a thread brings it closer to its
end. -/
theorem rank_lt (h : w.Step exit messages e exit' n stage) (hexit : exit = true)
    (hclaims : w.claims.toNat ≤ messages) : stage.rank < w.stage.rank := by
  cases h with
  | exits hstage | ends hstage | falls hstage | leave hstage | hookSend hstage =>
      rw [hstage]
      decide
  | panic hstage => rcases hstage with hstage | hstage <;> rw [hstage] <;> decide
  | wakes _ hstage hnext =>
      rw [hstage]
      rcases hnext with rfl | rfl <;> decide
  | returns _ hstage hnext =>
      have hbefore : w.stage.rank = 3 := by
        rcases hstage with hstage | hstage | hstage <;> rw [hstage] <;> rfl
      rw [hbefore]
      rcases hnext with rfl | rfl <;> decide
  | takes hn he htakes hstage =>
      rcases hstage with rfl | ⟨rfl, hw⟩
      · rcases he with ⟨_, hw⟩ | ⟨_, hw⟩ <;> rw [hw] <;> decide
      · rw [hw]
        decide
  | waits hstage hlooks hempty =>
      -- a thread that looks at the flag ends, and the other one finds a message
      exfalso
      cases hl : w.thread.looksAtExit with
      | true =>
          rw [hlooks hl] at hexit
          contradiction
      | false =>
          rcases hstage with hstage | ⟨_, hnot⟩
          · have hclaim : w.claims = true := by
              simp [Worker.claims, Thread.takesMessages, hl, hstage, WorkerStage.inLoop]
            rw [hclaim, hempty hl hstage] at hclaims
            contradiction
          · rw [hexit] at hnot
            contradiction

end Worker.Step

namespace Shutdown

variable {s s' : Shutdown} {joined detached : List Thread} {past events : List ShutdownEvent}
  {e : ShutdownEvent}

/-- The exit flag is set, and there is a message for every thread that may take one. -/
def Supplied (s : Shutdown) : Prop :=
  s.exit = true ∧ Worker.tally Worker.claims s.workers ≤ s.shutdownReceiver

/-- The steps that thread `i` can still take. -/
def rankOf (s : Shutdown) (i : Nat) : Nat :=
  match s.workers[i]? with
  | some w => w.stage.rank
  | none => 0

/-- The rank of a thread is that of its stage. -/
theorem rankOf_eq {i : Nat} {w : Worker} (hi : s.workers[i]? = some w) :
    s.rankOf i = w.stage.rank := by
  simp [rankOf, hi]

/-- No thread can take more than four. -/
theorem rankOf_le (s : Shutdown) (i : Nat) : s.rankOf i ≤ 4 := by
  unfold rankOf
  split
  · exact WorkerStage.rank_le _
  · exact Nat.zero_le 4

/-- Each thread finds its message. -/
theorem Supplied.claims_le {i : Nat} {w : Worker} (h : s.Supplied) (hi : s.workers[i]? = some w) :
    w.claims.toNat ≤ s.shutdownReceiver := by
  have hclaims := h.2
  rcases exists_sum_map_set hi fun w => w.claims.toNat with ⟨rest, hsum, _⟩
  unfold Worker.tally at hclaims
  omega

/-- A step of a supplied process keeps it supplied, and brings the thread whose step it is closer to
its end. -/
theorem supplied_step (h : s.Supplied) (hstep : Step s e s') (i : Nat) :
    s'.Supplied ∧ s'.rankOf i + (if e.isStepOf i then 1 else 0) ≤ s.rankOf i := by
  have hone := fun i w hi => Supplied.claims_le (i := i) (w := w) h hi
  rcases h with ⟨hexit, hclaims⟩
  cases hstep with
  | @worker j w e exit n stage hj hstep =>
      have hset := Worker.tally_set hj Worker.claims { w with stage }
      have hle := hstep.claims_le hexit
      have hrank := hstep.rank_lt hexit (hone j w hj)
      refine ⟨⟨hstep.exit_eq hexit, ?_⟩, ?_⟩
      · simp only
        omega
      · by_cases hji : j = i
        · subst hji
          have hnew : (s.workers.set j { w with stage })[j]? = some { w with stage } := by
            simp [(List.getElem?_eq_some_iff.mp hj).1]
          rw [rankOf_eq hj, rankOf_eq hnew]
          simpa [ShutdownEvent.isStepOf] using hrank
        · simp [rankOf, List.getElem?_set_ne hji, ShutdownEvent.isStepOf, hji]
  | signal => exact ⟨⟨rfl, hclaims⟩, le_rfl⟩
  | notify => exact ⟨⟨hexit, Nat.le_succ_of_le hclaims⟩, le_rfl⟩
  | returns => exact ⟨⟨hexit, hclaims⟩, le_rfl⟩
  | joins => exact ⟨⟨hexit, hclaims⟩, le_rfl⟩
  | joinPanics => exact ⟨⟨rfl, hclaims⟩, le_rfl⟩
  | mainHookSend => exact ⟨⟨hexit, Nat.le_succ_of_le hclaims⟩, le_rfl⟩

end Shutdown

/-- A thread has taken its message, or may still take one, or neither. -/
theorem Worker.received_add_claims_le {w : Worker}
    (h : w.received = true → w.thread.takesMessages = true) :
    w.received.toNat + w.claims.toNat ≤ w.thread.takesMessages.toNat := by
  unfold claims
  cases hreceived : w.received with
  | false => cases w.thread.takesMessages <;> cases w.stage.inLoop <;> decide
  | true =>
      have hout : w.stage.inLoop = false := by
        unfold received at hreceived
        cases hstage : w.stage <;> rw [hstage] at hreceived <;> first | rfl | contradiction
      rw [h hreceived, hout]
      decide

/-- There are no more messages taken or still to be taken than threads that take one. -/
theorem Worker.tally_received_add_claims_le {workers : List Worker}
    (h : ∀ w ∈ workers, w.received = true → w.thread.takesMessages = true) :
    tally received workers + tally claims workers ≤
      (workers.map Worker.thread).countP Thread.takesMessages := by
  induction workers with
  | nil => exact le_rfl
  | cons w workers ih =>
      have htail := ih fun x hx => h x (List.mem_cons_of_mem w hx)
      have hhead := received_add_claims_le (h w List.mem_cons_self)
      have hcount : ((w :: workers).map Worker.thread).countP Thread.takesMessages =
          (workers.map Worker.thread).countP Thread.takesMessages +
            w.thread.takesMessages.toNat := by
        rw [List.map_cons, List.countP_cons]
        cases w.thread.takesMessages <;> rfl
      rw [hcount]
      simp only [tally, List.map_cons, List.sum_cons] at htail ⊢
      omega

namespace Shutdown

variable {s s' : Shutdown} {joined detached : List Thread} {past events : List ShutdownEvent}

/-- Once the messages of a signal are sent, there is one for every thread that may take one, if
there are no more than 256 of them. -/
theorem supplied_of_run (h : run joined detached events = some s)
    (htakers : (joined ++ detached).countP Thread.takesMessages ≤ maxShutdownMessages)
    (hsignal : 0 < signals events) (hsent : s.notifier = 0) : s.Supplied := by
  have haccounts := Accounts.of_run h
  have hjoined := Joined.of_run h
  constructor
  · by_contra hexit
    have hnone := (haccounts.quiet (by simpa using hexit)).2.2.1
    omega
  · have hclaims := Worker.tally_received_add_claims_le haccounts.takers
    rw [hjoined.threads] at hclaims
    have hconserved := haccounts.conserved
    have hmany : maxShutdownMessages ≤ maxShutdownMessages * signals events :=
      Nat.le_mul_of_pos_right _ hsignal
    unfold taken at hconserved
    omega

/-- The steps that need nothing from outside: only signals, panics, errors, requests and answers of
other machines, and work for a thread that has no tick do. -/
def spontaneous (s : Shutdown) : ShutdownEvent → Bool
  | .signal => false
  | .worker _ .leave => false
  | .worker _ .panic => false
  | .worker _ .ask => false
  | .worker _ .answer => false
  | .worker i .restart => (s.workers[i]?).any fun w => !w.stage.awaitsAnswer
  | .worker i .wake => (s.workers[i]?).any fun w => w.thread.comesBack
  | _ => true

/-- Nothing happens any more without something from outside. -/
def Stuck (s : Shutdown) : Prop := ∀ e, s.spontaneous e = true → s.step e = none

/-- A panic hook waits for room in the channel. -/
def HookWaits (s : Shutdown) : Prop :=
  s.shutdownReceiver = maxShutdownMessages ∧
    (s.main = .panicking ∨ ∃ w ∈ s.workers, w.stage = .panicking)

/-- The thread that the main thread joins waits for another machine. -/
def AwaitsAnswer (s : Shutdown) : Prop :=
  ∃ handle w, s.main = .joining handle ∧ s.workers[handle]? = some w ∧
    w.stage.awaitsAnswer = true

/-- A step that a thread can take is one that the process can take. -/
theorem step_worker {i : Nat} {w : Worker} {e : WorkerEvent} (hmain : s.main.finished = false)
    (hi : s.workers[i]? = some w) : s.step (.worker i e) = s.stepWorker i w e := by
  simp [step, hmain, hi]

/-- A thread in its loop can go on when it has been supplied with messages, unless it waits for
another machine. -/
theorem exists_step_of_inLoop {i : Nat} {w : Worker} (hmain : s.main.finished = false)
    (h : s.Supplied) (hi : s.workers[i]? = some w) (hloop : w.stage.inLoop = true)
    (hanswer : w.stage.awaitsAnswer = false) :
    ∃ e s', s.spontaneous e = true ∧ s.step e = some s' := by
  have hgoes : ∀ e next, s.spontaneous (.worker i e) = true →
      w.step s.exit s.shutdownReceiver e = some next →
      ∃ e s', s.spontaneous e = true ∧ s.step e = some s' := by
    intro e next hspontaneous hnext
    refine ⟨.worker i e, { s with
      exit := next.1
      shutdownReceiver := next.2.1
      workers := s.workers.set i { w with stage := next.2.2 } }, hspontaneous, ?_⟩
    rw [step_worker hmain hi, stepWorker, hnext]
    rfl
  cases hstage : w.stage with
  | checking =>
      have hcheck : ∃ next, w.step s.exit s.shutdownReceiver .check = some next := by
        simp only [Worker.step, hstage]
        split
        · exact ⟨_, rfl⟩
        · split <;> exact ⟨_, rfl⟩
      rcases hcheck with ⟨next, hnext⟩
      exact hgoes .check next rfl hnext
  | inner => exact hgoes .check _ rfl (by simp only [Worker.step, hstage]; rfl)
  | working => exact hgoes .finish _ rfl (by simp only [Worker.step, hstage]; rfl)
  | waiting =>
      by_cases hback : w.thread.comesBack = true
      · exact hgoes .wake _ (by simp [spontaneous, hi, hback])
          (by simp only [Worker.step, hstage]; rfl)
      · -- only a forwarder without a tick waits for ever, and it takes messages
        have hselects : w.thread.selectsShutdown = true := by
          cases hthread : w.thread <;> simp [hthread, Thread.comesBack] at hback
          rfl
        have hclaim : w.claims = true := by
          simp [Worker.claims, Thread.takesMessages, hselects, hloop]
        have hmessage : 0 < s.shutdownReceiver := by
          have hle := h.claims_le hi
          rw [hclaim] at hle
          exact hle
        obtain ⟨n, hn⟩ := Nat.exists_eq_add_of_lt hmessage
        rw [Nat.zero_add] at hn
        exact hgoes .shutdown _ rfl (by simp only [Worker.step, hstage, hn, hselects]; rfl)
  | connecting | asking =>
      rw [hstage] at hanswer
      contradiction
  | rechecking | panicking | stopped reason =>
      rw [hstage] at hloop
      contradiction

/-- With enough messages, the process only gets stuck when it ends, when a panic hook waits, or when
the main thread joins a thread that waits for another machine. -/
theorem finished_of_stuck (h : s.Supplied) (hjoined : Joined joined detached s)
    (hroom : s.shutdownReceiver ≤ maxShutdownMessages) (hstuck : s.Stuck) :
    s.main.finished = true ∨ s.HookWaits ∨ s.AwaitsAnswer := by
  by_contra hnot
  rw [not_or, not_or] at hnot
  have hmain : s.main.finished = false := by simpa using hnot.1
  have hfree : s.main = .panicking ∨ (∃ w ∈ s.workers, w.stage = .panicking) →
      s.shutdownReceiver < maxShutdownMessages := by
    intro hhook
    rcases Nat.lt_or_eq_of_le hroom with hlt | heq
    · exact hlt
    · exact absurd ⟨heq, hhook⟩ hnot.2.1
  have hnone : ∀ e s', s.spontaneous e = true → s.step e ≠ some s' := by
    intro e s' he hs'
    rw [hstuck e he] at hs'
    contradiction
  cases hstage : s.main with
  | returned | aborted =>
      rw [hstage] at hmain
      contradiction
  | panicking =>
      have hlt := hfree (Or.inl hstage)
      exact hnone .mainHookSend _ rfl (by simp only [step, hstage, hlt]; rfl)
  | joining handle =>
      rcases Nat.lt_or_eq_of_le (hjoined.handle_le handle hstage) with hlt | rfl
      · have hlength : s.threadHandles ≤ s.workers.length := by
          have hthreads := congrArg List.length hjoined.threads
          rw [List.length_map, List.length_append] at hthreads
          rw [hjoined.threadHandles, hthreads]
          exact Nat.le_add_right _ _
        have hw := List.getElem?_eq_getElem (hlt.trans_le hlength)
        set w := s.workers[handle] with hwdef
        have hne : handle ≠ s.threadHandles := hlt.ne
        have hanswer : w.stage.awaitsAnswer = false := by
          by_contra hawaits
          exact hnot.2.2 ⟨handle, w, hstage, hw, by simpa using hawaits⟩
        cases hwstage : w.stage with
        | checking | inner | waiting | working | connecting | asking =>
            rcases exists_step_of_inLoop hmain h hw (by rw [hwstage]; rfl) hanswer with
              ⟨e, s', he, hs'⟩
            exact hnone e s' he hs'
        | rechecking =>
            apply hnone (.worker handle .check) _ rfl
            rw [step_worker hmain hw, stepWorker]
            simp only [Worker.step, hwstage]
            rfl
        | panicking =>
            have hroom := hfree (Or.inr ⟨w, List.mem_of_getElem? hw, hwstage⟩)
            apply hnone (.worker handle .hookSend) _ rfl
            rw [step_worker hmain hw, stepWorker]
            simp only [Worker.step, hwstage, hroom]
            rfl
        | stopped reason =>
            cases reason <;> exact hnone .join _ rfl
              (by simp only [step, hstage, hne, hw, hwstage, Option.map_some]; rfl)
      · exact hnone .join _ rfl (by simp only [step, hstage]; rfl)

/-- A thread that has ended, or that waits for another machine, takes no step by itself. -/
theorem step_worker_eq_none {i : Nat} {w : Worker} {e : WorkerEvent}
    (hi : s.workers[i]? = some w)
    (hrests : w.stage.isStopped = true ∨ w.stage.awaitsAnswer = true)
    (he : s.spontaneous (.worker i e) = true) : s.step (.worker i e) = none := by
  have hnone : w.step s.exit s.shutdownReceiver e = none := by
    cases hstage : w.stage with
    | stopped | connecting | asking =>
        cases e <;>
          simp [Worker.step, spontaneous, hi, hstage, WorkerStage.awaitsAnswer] at he ⊢
    | checking | rechecking | inner | waiting | working | panicking =>
        rw [hstage] at hrests
        rcases hrests with h | h <;> contradiction
  unfold step
  split
  · rfl
  · simp only [hi, stepWorker, hnone, Option.map_none]

/-- When all threads have ended or wait for other machines, and the main thread joins one that
waits, nothing happens any more. -/
theorem stuck_of_awaitsAnswer {handle : Nat} {w : Worker} (hmain : s.main = .joining handle)
    (hne : handle ≠ s.threadHandles) (hw : s.workers[handle]? = some w)
    (hawaits : w.stage.awaitsAnswer = true) (hsent : s.notifier = 0)
    (hrest : ∀ v ∈ s.workers, v.stage.isStopped = true ∨ v.stage.awaitsAnswer = true) :
    s.Stuck := by
  intro e he
  cases e with
  | signal => contradiction
  | notify => simp [step, hmain, hsent]
  | worker i e =>
      cases hi : s.workers[i]? with
      | none => simp [step, hi]
      | some v => exact step_worker_eq_none hi (hrest v (List.mem_of_getElem? hi)) he
  | join =>
      cases hstage : w.stage with
      | connecting | asking => simp [step, hmain, hne, hw, hstage]
      | checking | rechecking | inner | waiting | working | panicking | stopped =>
          rw [hstage] at hawaits
          contradiction
  | mainHookSend => simp [step, hmain]

/-- Supplied with messages, every continuation has at most four steps of each thread, and can only
be stuck at the end, in a panic hook, or where another machine has to answer. -/
theorem ends_of_supplied {later : List ShutdownEvent} (h : run joined detached events = some s)
    (hsupplied : s.Supplied) (hlater : EventRun.run step s later = some s') :
    (∀ i, later.countP (ShutdownEvent.isStepOf i) ≤ 4) ∧
      (s'.Stuck → s'.main.finished = true ∨ s'.HookWaits ∨ s'.AwaitsAnswer) := by
  have hrun : run joined detached (events ++ later) = some s' := by
    rw [run, EventRun.run_append, ← run, h]
    exact hlater
  have hranked : ∀ i, s'.Supplied ∧
      s'.rankOf i + later.countP (ShutdownEvent.isStepOf i) ≤ s.rankOf i := by
    intro i
    have hstep : ∀ s e s', s.Supplied → step s e = some s' →
        s'.Supplied ∧ s'.rankOf i + (if e.isStepOf i then 1 else 0) ≤ s.rankOf i :=
      fun s e s' hs hstep => supplied_step hs (step_cases hstep).2 i
    exact EventRun.countP_le_of_rank hstep hsupplied hlater
  constructor
  · intro i
    exact (Nat.le_add_left _ _).trans ((hranked i).2.trans (s.rankOf_le i))
  · exact finished_of_stuck (hranked 0).1 (Joined.of_run hrun) (Accounts.of_run hrun).room

end Shutdown

/-- Beside the forwarders, five threads take shutdown messages. -/
theorem ThreadArgs.takers_le (args : ThreadArgs) :
    (args.threadHandles ++ args.detached).countP Thread.takesMessages ≤ args.sockets + 5 := by
  unfold ThreadArgs.threadHandles ThreadArgs.detached
  cases args.shredstream <;> cases args.useDiscoveryService <;>
    cases args.grpcServicePort <;> cases args.prometheusBindAddr <;>
    simp [List.countP_append, List.countP_replicate, Thread.takesMessages, Thread.selectsShutdown,
      Thread.looksAtExit]

/-- Once the messages of a signal are sent, and if no more than 256 threads take messages, every
continuation has at most four steps of each thread, whatever arrives from outside.  When nothing
happens any more, the main thread has ended, a panic hook waits for room in the full channel, or the
main thread joins a thread that waits for another machine. -/
theorem shutdown_ends (joined detached : List Thread) (events later : List ShutdownEvent)
    (s s' : Shutdown) (h : Shutdown.run joined detached events = some s)
    (htakers : (joined ++ detached).countP Thread.takesMessages ≤ 256)
    (hsignal : 0 < signals events) (hsent : s.notifier = 0)
    (hlater : EventRun.run Shutdown.step s later = some s') :
    (∀ i, later.countP (ShutdownEvent.isStepOf i) ≤ 4) ∧
      (s'.Stuck → s'.main.finished = true ∨ s'.HookWaits ∨ s'.AwaitsAnswer) := by
  exact ends_of_supplied h (supplied_of_run h htakers hsignal hsent) hlater

namespace Sample

/-- The threads of a proxy with one socket that also requests shreds. -/
def requesting : ThreadArgs := { forwardOnly with shredstream := true }

/-- A heartbeat is on its way when the process gets a signal, and the handler has sent all its
messages. -/
def sentEvents : List ShutdownEvent :=
  [.worker 0 .check, .worker 0 .answer, .worker 0 .check, .worker 0 .ask, .worker 1 .check,
    .signal] ++ List.replicate 256 .notify

/-- The forwarder takes its message and the other threads see the exit flag, while the heartbeat is
still on its way. -/
def restingEvents : List ShutdownEvent :=
  [.worker 1 .shutdown, .worker 2 .check, .worker 3 .check]

/-- The heartbeat is answered, and its thread sees the exit flag in both its loops. -/
def answeredEvents : List ShutdownEvent :=
  [.worker 0 .answer, .worker 0 .check, .worker 0 .check]

end Sample

/-- A signal comes while a heartbeat is on its way.  Without an answer the process is stuck, and
with an answer it ends. -/
theorem shutdown_ends_sample :
    ∃ s s' s'', Shutdown.run Sample.requesting.threadHandles Sample.requesting.detached
        Sample.sentEvents = some s ∧
      EventRun.run Shutdown.step s Sample.restingEvents = some s' ∧ s'.Stuck ∧
      s'.workers[0]? = some ⟨.heartbeat, .asking⟩ ∧
      EventRun.run Shutdown.step s' (Sample.answeredEvents ++ List.replicate 5 .join) =
        some s'' ∧ s''.main = .returned ∧
      (∀ i, Sample.restingEvents.countP (ShutdownEvent.isStepOf i) ≤ 4) ∧
      (s'.main.finished = true ∨ s'.HookWaits ∨ s'.AwaitsAnswer) := by
  have hrun : Shutdown.run Sample.requesting.threadHandles Sample.requesting.detached
      Sample.sentEvents = some
        { exit := true
          shutdownReceiver := 256
          notifier := 0
          workers :=
            [⟨.heartbeat, .asking⟩, ⟨.forwarder false, .waiting⟩, ⟨.reportMetrics, .checking⟩,
              ⟨.accessory, .checking⟩]
          threadHandles := 4
          main := .joining 0 } := by
    decide +kernel
  have hstuck : Shutdown.Stuck
      { exit := true
        shutdownReceiver := 255
        notifier := 0
        workers :=
          [⟨.heartbeat, .asking⟩, ⟨.forwarder false, .stopped .message⟩,
            ⟨.reportMetrics, .stopped .exit⟩, ⟨.accessory, .stopped .exit⟩]
        threadHandles := 4
        main := .joining 0 } :=
    Shutdown.stuck_of_awaitsAnswer rfl (by decide) rfl rfl rfl (by decide)
  have hends := shutdown_ends Sample.requesting.threadHandles Sample.requesting.detached
    Sample.sentEvents Sample.restingEvents _ _ hrun (by decide) (by decide +kernel) rfl rfl
  exact ⟨_, _, _, hrun, rfl, hstuck, rfl, rfl, rfl, hends.1, hends.2 hstuck⟩

/-! ## The panic hook -/

namespace Shutdown

variable {s s' : Shutdown} {e : ShutdownEvent}

/-- The channel is full, nobody is left to empty it, and the main thread cannot get past a thread
that is in the panic hook. -/
structure Hangs (handle : Nat) (s : Shutdown) : Prop where
  full : s.shutdownReceiver = maxShutdownMessages
  ended : ∀ w ∈ s.workers, w.stage.isStopped = true ∨ w.stage = .panicking
  panicking : ∃ w, s.workers[handle]? = some w ∧ w.stage = .panicking
  joining : (∃ k ≤ handle, s.main = .joining k) ∨ s.main = .panicking
  handle_lt : handle < s.threadHandles

/-- Nothing can be taken or sent, so the process stays where it is. -/
theorem Hangs.of_step {handle : Nat} (h : Hangs handle s) (hstep : Step s e s') :
    Hangs handle s' ∧ s'.workers = s.workers := by
  have hfull := h.full
  cases hstep with
  | signal => exact ⟨⟨hfull, h.ended, h.panicking, h.joining, h.handle_lt⟩, rfl⟩
  | notify hn hroom => omega
  | mainHookSend hmain hroom => omega
  | @worker i w e exit n stage hi hstep =>
      -- the thread would have to send its message
      rcases h.ended w (List.mem_of_getElem? hi) with hstopped | hpanicking
      · rw [hstep.isStopped_eq] at hstopped
        contradiction
      · cases hstep with
        | hookSend _ hroom => omega
        | exits hstage | ends hstage | falls hstage | wakes _ hstage | leave hstage =>
            rw [hpanicking] at hstage
            contradiction
        | waits hstage | returns _ hstage | panic hstage =>
            rw [hpanicking] at hstage
            simp at hstage
        | takes _ he =>
            rw [hpanicking] at he
            simp at he
  | returns hmain =>
      rcases h.joining with ⟨k, hk, hjoining⟩ | hjoining
      · rw [hmain, MainStage.joining.injEq] at hjoining
        have := h.handle_lt
        omega
      · rw [hmain] at hjoining
        contradiction
  | @joins k w hmain _ hw hstopped =>
      rcases h.joining with ⟨k', hk, hjoining⟩ | hjoining
      · rw [hmain, MainStage.joining.injEq] at hjoining
        subst hjoining
        have hne : k ≠ handle := by
          rintro rfl
          rcases h.panicking with ⟨w', hw', hpanicking⟩
          rw [hw, Option.some.injEq] at hw'
          subst hw'
          rw [hpanicking] at hstopped
          contradiction
        exact ⟨⟨hfull, h.ended, h.panicking, Or.inl ⟨k + 1, by omega, rfl⟩, h.handle_lt⟩, rfl⟩
      · rw [hmain] at hjoining
        contradiction
  | joinPanics =>
      exact ⟨⟨hfull, h.ended, h.panicking, Or.inr rfl, h.handle_lt⟩, rfl⟩

end Shutdown

/-- If the channel is full when a thread is in the panic hook, all others have ended, and the main
thread still has to join it, then the process never ends: in every continuation the threads stay
where they are and the main thread does not end. -/
theorem panic_hook_hangs (s s' : Shutdown) (handle : Nat) (h : Hangs handle s)
    (later : List ShutdownEvent) (hlater : EventRun.run Shutdown.step s later = some s') :
    s'.workers = s.workers ∧ s'.shutdownReceiver = 256 ∧ s'.main.finished = false := by
  have hkeep : Hangs handle s' ∧ s'.workers = s.workers := by
    refine EventRun.run_invariant (I := fun _ s' => Hangs handle s' ∧ s'.workers = s.workers)
      ⟨h, rfl⟩ ?_ hlater
    rintro _ s₁ e s₂ ⟨hs₁, hsame⟩ hstep
    have hnext := hs₁.of_step (step_cases hstep).2
    exact ⟨hnext.1, hnext.2.trans hsame⟩
  refine ⟨hkeep.2, hkeep.1.full, ?_⟩
  rcases hkeep.1.joining with ⟨k, _, hmain⟩ | hmain <;> rw [hmain] <;> rfl

/-- The process gets a signal while the forwarder works.  The other threads see the exit flag and
end without taking a message, and then the forwarder panics. -/
def Sample.hangEvents : List ShutdownEvent :=
  [.worker 0 .check, .worker 0 .wake, .signal] ++ List.replicate 256 .notify ++
    [.worker 1 .check, .worker 2 .check, .worker 0 .panic]

/-- A thread that panics when the channel is full and the others have ended. -/
theorem panic_hook_hangs_sample :
    ∃ s, Shutdown.run Sample.forwardOnly.threadHandles Sample.forwardOnly.detached
        Sample.hangEvents = some s ∧
      ∀ later s', EventRun.run Shutdown.step s later = some s' →
        s'.workers = s.workers ∧ s'.shutdownReceiver = 256 ∧ s'.main.finished = false := by
  have hrun : Shutdown.run Sample.forwardOnly.threadHandles Sample.forwardOnly.detached
      Sample.hangEvents = some
        { exit := true
          shutdownReceiver := 256
          notifier := 0
          workers :=
            [⟨.forwarder false, .panicking⟩, ⟨.reportMetrics, .stopped .exit⟩,
              ⟨.accessory, .stopped .exit⟩]
          threadHandles := 3
          main := .joining 0 } := by
    decide +kernel
  refine ⟨_, hrun, ?_⟩
  intro later s' hlater
  refine panic_hook_hangs _ s' 0 ⟨rfl, ?_, ?_, ?_, ?_⟩ later hlater
  · decide
  · exact ⟨_, rfl, rfl⟩
  · exact Or.inl ⟨0, le_rfl, rfl⟩
  · decide

end ShredstreamProxy
