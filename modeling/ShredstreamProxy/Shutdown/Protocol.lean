import ShredstreamProxy.Lib.EventRun
import ShredstreamProxy.Lib.Family

/-!
# The shutdown protocol

The process is stopped through an exit flag and a bounded channel of shutdown messages.  The signal
handler sets the flag and fills the channel, since one message only reaches one thread; the panic
hook sets the flag and sends a single message.  Sending waits for room.  The threads differ in what
they look at: most loops end when the flag is set, some also wait for a message beside their work,
and one looks at the channel only.  Two threads also wait for other machines, for as long as these
take.  The main thread joins all threads in a fixed order.  This module embeds the protocol with the
loop of every thread, reduced to the points where it looks at the flag, waits, works, or panics.

Main definitions:

- {lit}`Thread`: the threads of the process, and what their loops look at.
- {lit}`Worker.step`: one step of a thread.
- {lit}`Shutdown`: the flag, the channel and all threads.
- {lit}`Shutdown.step`: one step of any of them.
- Theorem {lit}`Shutdown.step_cases`: what a step can do.
-/

namespace ShredstreamProxy

/-! ## Threads -/

/-- The threads whose loops are part of the proxy. The listeners of the sockets are not: they end
when the flag is set, and take no messages. -/
inductive Thread where
  | heartbeat
  | reconstructor
  | forwarder (useDiscoveryService : Bool)
  | reportMetrics
  | accessory
  | destinationRefresh
  | server
  | prometheus
deriving DecidableEq

namespace Thread

/-- The loop ends when the exit flag is set. -/
def looksAtExit : Thread → Bool
  | .prometheus => false
  | _ => true

/-- The loop waits for a shutdown message beside its work. -/
def selectsShutdown : Thread → Bool
  | .heartbeat | .forwarder _ | .accessory | .destinationRefresh | .server => true
  | .reconstructor | .reportMetrics | .prometheus => false

/-- The thread takes messages from the shutdown channel. -/
def takesMessages (t : Thread) : Bool := t.selectsShutdown || !t.looksAtExit

/-- A tick or a timeout ends the wait.  The tick of a forwarder is for refreshed destinations, and
never comes without a discovery service. -/
def comesBack : Thread → Bool
  | .forwarder useDiscoveryService => useDiscoveryService
  | _ => true

/-- The loop has an inner loop, which runs while there is a connection. -/
def hasInnerLoop : Thread → Bool
  | .heartbeat => true
  | _ => false

/-- The thread waits for another machine without a timeout: for the answer to a request, or for a
client that reads. -/
def asksOthers : Thread → Bool
  | .heartbeat | .prometheus => true
  | _ => false

/-- The loop also ends when a channel is closed or forwarding failed. -/
def mayLeave : Thread → Bool
  | .forwarder _ | .reconstructor => true
  | _ => false

end Thread

/-- How a thread ended. -/
inductive StopReason where
  | exit
  | message
  | left
  | panic
deriving DecidableEq

/-- Where a thread stands. -/
inductive WorkerStage where
  /-- At the head of its loop. -/
  | checking
  /-- At the head of its outer loop, after a message ended the inner one. -/
  | rechecking
  /-- It waits for a connection. -/
  | connecting
  /-- At the head of its inner loop. -/
  | inner
  | waiting
  | working
  /-- It waits for another machine. -/
  | asking
  /-- In the panic hook, about to send a message. -/
  | panicking
  | stopped (reason : StopReason)
deriving DecidableEq

namespace WorkerStage

/-- The thread has taken a message. -/
def received : WorkerStage → Bool
  | .rechecking => true
  | .stopped .message => true
  | _ => false

/-- The thread has ended. -/
def isStopped : WorkerStage → Bool
  | .stopped _ => true
  | _ => false

/-- The thread is in its loop, or left it for a reason of its own. -/
def undisturbed : WorkerStage → Bool
  | .checking | .connecting | .inner | .waiting | .working | .asking => true
  | .stopped .left => true
  | _ => false

/-- The thread has panicked. -/
def panics : WorkerStage → Bool
  | .panicking => true
  | .stopped .panic => true
  | _ => false

/-- Only another machine can end the wait of the thread. -/
def awaitsAnswer : WorkerStage → Bool
  | .connecting | .asking => true
  | _ => false

end WorkerStage

namespace Thread

/-- What the thread does when it is not told to stop. -/
def enters (t : Thread) : WorkerStage := if t.hasInnerLoop then .connecting else .waiting

/-- The head of the loop in which the thread works. -/
def head (t : Thread) : WorkerStage := if t.hasInnerLoop then .inner else .checking

end Thread

structure Worker where
  thread : Thread
  stage : WorkerStage
deriving DecidableEq

/-! ## The process -/

/-- Where the main thread stands. -/
inductive MainStage where
  /-- It waits for the thread with this handle. -/
  | joining (handle : Nat)
  /-- A joined thread had panicked, and so does the main thread. -/
  | panicking
  | aborted
  | returned
deriving DecidableEq

def MainStage.finished : MainStage → Bool
  | .aborted | .returned => true
  | _ => false

/-- Room in the shutdown channel, and messages that the signal handler sends for each signal. -/
def maxShutdownMessages : Nat := 256

/-- The exit flag, the messages in the channel, those that the signal handler still has to send, the
threads, and how many of them are joined. -/
structure Shutdown where
  exit : Bool
  shutdownReceiver : Nat
  notifier : Nat
  workers : List Worker
  threadHandles : Nat
  main : MainStage
deriving DecidableEq

inductive WorkerEvent where
  | check
  /-- A message is taken from the channel. -/
  | shutdown
  /-- There is something to do. -/
  | wake
  /-- There is something to do, and another machine has to answer. -/
  | ask
  | finish
  /-- The other machine has answered. -/
  | answer
  /-- The connection is given up, or could not be made. -/
  | restart
  /-- The loop ends for a reason of its own. -/
  | leave
  | panic
  | hookSend
deriving DecidableEq

inductive ShutdownEvent where
  | signal
  /-- The signal handler sends a message. -/
  | notify
  | worker (i : Nat) (e : WorkerEvent)
  /-- The main thread joins the next thread, or returns when there is none left. -/
  | join
  /-- The main thread is in the panic hook and sends its message. -/
  | mainHookSend
deriving DecidableEq

/-- One step of a thread that sees the exit flag and the messages in the channel: what becomes of
them, and where the thread then stands. -/
def Worker.step (exit : Bool) (messages : Nat) (w : Worker) :
    WorkerEvent → Option (Bool × Nat × WorkerStage)
  | .check =>
      match w.stage with
      | .checking =>
          if w.thread.looksAtExit then
            some (exit, messages, if exit then .stopped .exit else w.thread.enters)
          else
            match messages with
            | n + 1 => some (exit, n, .stopped .message)
            | 0 => some (exit, 0, .waiting)
      | .rechecking =>
          some (exit, messages, if exit then .stopped .message else w.thread.enters)
      | .inner => some (exit, messages, if exit then .checking else .waiting)
      | _ => none
  | .shutdown =>
      match w.stage, messages with
      | .waiting, n + 1 =>
          if w.thread.selectsShutdown then
            -- the message only ends the inner loop of the heartbeat thread
            some (exit, n, if w.thread.hasInnerLoop then .rechecking else .stopped .message)
          else none
      | _, _ => none
  | .wake =>
      match w.stage with
      | .waiting => some (exit, messages, .working)
      | _ => none
  | .ask =>
      match w.stage with
      | .waiting => if w.thread.asksOthers then some (exit, messages, .asking) else none
      | _ => none
  | .finish =>
      match w.stage with
      | .working => some (exit, messages, w.thread.head)
      | _ => none
  | .answer =>
      match w.stage with
      | .connecting | .asking => some (exit, messages, w.thread.head)
      | _ => none
  | .restart =>
      match w.stage with
      | .connecting | .working =>
          if w.thread.hasInnerLoop then some (exit, messages, .checking) else none
      | _ => none
  | .leave =>
      match w.stage with
      | .working => if w.thread.mayLeave then some (exit, messages, .stopped .left) else none
      | _ => none
  | .panic =>
      match w.stage with
      | .working | .asking => some (true, messages, .panicking)
      | _ => none
  | .hookSend =>
      match w.stage with
      | .panicking =>
          if messages < maxShutdownMessages then some (exit, messages + 1, .stopped .panic)
          else none
      | _ => none

namespace Shutdown

/-- The main thread has spawned its threads.  It keeps the handles of the first of them only. -/
def initial (joined detached : List Thread) : Shutdown where
  exit := false
  shutdownReceiver := 0
  notifier := 0
  workers := (joined ++ detached).map fun thread => ⟨thread, .checking⟩
  threadHandles := joined.length
  main := .joining 0

/-- One step of thread `i`. -/
def stepWorker (s : Shutdown) (i : Nat) (w : Worker) (e : WorkerEvent) : Option Shutdown :=
  (w.step s.exit s.shutdownReceiver e).map fun (exit, shutdownReceiver, stage) =>
    { s with exit, shutdownReceiver, workers := s.workers.set i { w with stage } }

/-- One step of the process.  Nothing moves after the main thread has ended. -/
def step (s : Shutdown) (e : ShutdownEvent) : Option Shutdown :=
  if s.main.finished then none
  else
    match e with
    | .signal =>
        match s.notifier with
        | 0 => some { s with exit := true, notifier := maxShutdownMessages }
        | _ + 1 => none
    | .notify =>
        match s.notifier with
        | 0 => none
        | n + 1 =>
            if s.shutdownReceiver < maxShutdownMessages then
              some { s with notifier := n, shutdownReceiver := s.shutdownReceiver + 1 }
            else none
    | .worker i e =>
        match s.workers[i]? with
        | some w => s.stepWorker i w e
        | none => none
    | .join =>
        match s.main with
        | .joining handle =>
            if handle = s.threadHandles then some { s with main := .returned }
            else
              match (s.workers[handle]?).map Worker.stage with
              | some (.stopped .panic) => some { s with exit := true, main := .panicking }
              | some (.stopped _) => some { s with main := .joining (handle + 1) }
              | _ => none
        | _ => none
    | .mainHookSend =>
        match s.main with
        | .panicking =>
            if s.shutdownReceiver < maxShutdownMessages then
              some { s with shutdownReceiver := s.shutdownReceiver + 1, main := .aborted }
            else none
        | _ => none

def run (joined detached : List Thread) (events : List ShutdownEvent) : Option Shutdown :=
  EventRun.run step (initial joined detached) events

end Shutdown

/-- What decides which threads there are. -/
structure ThreadArgs where
  /-- The proxy also requests shreds. -/
  shredstream : Bool
  grpcServicePort : Option UInt16
  /-- Sockets that shreds arrive at, each with a forwarder. -/
  sockets : Nat
  useDiscoveryService : Bool
  /-- There is an address to serve the metrics at. -/
  prometheusBindAddr : Bool

/-- The threads that the main thread joins, in this order. -/
def ThreadArgs.threadHandles (args : ThreadArgs) : List Thread :=
  (if args.shredstream then [.heartbeat] else []) ++
  List.replicate args.sockets (.forwarder args.useDiscoveryService) ++
  [.reportMetrics, .accessory] ++
  (if args.useDiscoveryService then [.destinationRefresh] else []) ++
  (if args.grpcServicePort.isSome then [.server] else []) ++
  (if args.prometheusBindAddr then [.prometheus] else [])

/-- The handle of the reconstructor is dropped. -/
def ThreadArgs.detached (args : ThreadArgs) : List Thread :=
  if args.grpcServicePort.isSome then [.reconstructor] else []

/-! ## What a step can do -/

/-- What a step can do to one thread, to the exit flag and to the messages in the channel. -/
inductive Worker.Step (exit : Bool) (messages : Nat) (w : Worker) :
    WorkerEvent → Bool → Nat → WorkerStage → Prop
  | exits (hstage : w.stage = .checking) (hlooks : w.thread.looksAtExit = true)
      (hexit : exit = true) : Step exit messages w .check exit messages (.stopped .exit)
  | ends (hstage : w.stage = .rechecking) (hexit : exit = true) :
      Step exit messages w .check exit messages (.stopped .message)
  | falls (hstage : w.stage = .inner) (hexit : exit = true) :
      Step exit messages w .check exit messages .checking
  | waits {stage : WorkerStage}
      (hstage : w.stage = .checking ∨ (w.stage = .rechecking ∨ w.stage = .inner) ∧ exit = false)
      (hlooks : w.thread.looksAtExit = true → exit = false)
      (hempty : w.thread.looksAtExit = false → w.stage = .checking → messages = 0)
      (hnext : stage = .waiting ∨ stage = .connecting) :
      Step exit messages w .check exit messages stage
  | takes {e : WorkerEvent} {n : Nat} {stage : WorkerStage} (hn : messages = n + 1)
      (he : e = .check ∧ w.stage = .checking ∨ e = .shutdown ∧ w.stage = .waiting)
      (htakes : w.thread.takesMessages = true)
      (hstage : stage = .stopped .message ∨ stage = .rechecking ∧ w.stage = .waiting) :
      Step exit messages w e exit n stage
  | wakes {e : WorkerEvent} {stage : WorkerStage} (he : e ≠ .hookSend) (hstage : w.stage = .waiting)
      (hnext : stage = .working ∨ stage = .asking) : Step exit messages w e exit messages stage
  | returns {e : WorkerEvent} {stage : WorkerStage} (he : e ≠ .hookSend)
      (hstage : w.stage = .working ∨ w.stage = .asking ∨ w.stage = .connecting)
      (hnext : stage = .checking ∨ stage = .inner) : Step exit messages w e exit messages stage
  | leave (hstage : w.stage = .working) (hleave : w.thread.mayLeave = true) :
      Step exit messages w .leave exit messages (.stopped .left)
  | panic (hstage : w.stage = .working ∨ w.stage = .asking) :
      Step exit messages w .panic true messages .panicking
  | hookSend (hstage : w.stage = .panicking) (hroom : messages < maxShutdownMessages) :
      Step exit messages w .hookSend exit (messages + 1) (.stopped .panic)

/-- What a step can do to the process. -/
inductive Shutdown.Step (s : Shutdown) : ShutdownEvent → Shutdown → Prop
  | signal (hidle : s.notifier = 0) :
      Step s .signal { s with exit := true, notifier := maxShutdownMessages }
  | notify {n : Nat} (hn : s.notifier = n + 1) (hroom : s.shutdownReceiver < maxShutdownMessages) :
      Step s .notify { s with notifier := n, shutdownReceiver := s.shutdownReceiver + 1 }
  | worker {i : Nat} {w : Worker} {e : WorkerEvent} {exit : Bool} {n : Nat} {stage : WorkerStage}
      (hi : s.workers[i]? = some w) (hstep : w.Step s.exit s.shutdownReceiver e exit n stage) :
      Step s (.worker i e)
        { s with exit, shutdownReceiver := n, workers := s.workers.set i { w with stage } }
  | returns (hmain : s.main = .joining s.threadHandles) :
      Step s .join { s with main := .returned }
  | joins {handle : Nat} {w : Worker} (hmain : s.main = .joining handle)
      (hne : handle ≠ s.threadHandles) (hw : s.workers[handle]? = some w)
      (hstopped : w.stage.isStopped = true) (hpanics : w.stage.panics = false) :
      Step s .join { s with main := .joining (handle + 1) }
  | joinPanics {handle : Nat} {w : Worker} (hmain : s.main = .joining handle)
      (hw : s.workers[handle]? = some w) (hstage : w.stage = .stopped .panic) :
      Step s .join { s with exit := true, main := .panicking }
  | mainHookSend (hmain : s.main = .panicking) (hroom : s.shutdownReceiver < maxShutdownMessages) :
      Step s .mainHookSend
        { s with shutdownReceiver := s.shutdownReceiver + 1, main := .aborted }

namespace Thread

/-- A thread that is not told to stop waits, or connects first. -/
theorem enters_cases (t : Thread) : t.enters = .waiting ∨ t.enters = .connecting := by
  unfold enters
  cases t.hasInnerLoop
  · exact Or.inl rfl
  · exact Or.inr rfl

/-- When it has worked, a thread looks at the flag again, in its only or in its inner loop. -/
theorem head_cases (t : Thread) : t.head = .checking ∨ t.head = .inner := by
  unfold head
  cases t.hasInnerLoop
  · exact Or.inl rfl
  · exact Or.inr rfl

end Thread

/-- The result of a step is determined. -/
theorem Worker.Step.of_eq {exit exit' exit₀ : Bool} {messages n n₀ : Nat} {w : Worker}
    {e : WorkerEvent} {stage stage₀ : WorkerStage}
    (h : some (exit₀, n₀, stage₀) = some (exit', n, stage))
    (hstep : w.Step exit messages e exit₀ n₀ stage₀) : w.Step exit messages e exit' n stage := by
  cases h
  exact hstep

/-- The effects of a step of a thread. -/
theorem Worker.step_cases {exit exit' : Bool} {messages n : Nat} {w : Worker} {e : WorkerEvent}
    {stage : WorkerStage} (h : w.step exit messages e = some (exit', n, stage)) :
    w.Step exit messages e exit' n stage := by
  have hnone : none ≠ some (exit', n, stage) := by simp
  cases e with
  | check =>
      simp only [step] at h
      split at h
      · rename_i hstage
        split at h
        · rename_i hlooks
          split at h
          · rename_i hexit
            exact .of_eq h (.exits hstage hlooks hexit)
          · rename_i hexit
            exact .of_eq h (.waits (Or.inl hstage) (fun _ => by simpa using hexit)
              (by simp [hlooks]) w.thread.enters_cases)
        · rename_i hlooks
          split at h
          · exact .of_eq h (.takes rfl (Or.inl ⟨rfl, hstage⟩)
              (by simp [Thread.takesMessages, hlooks]) (Or.inl rfl))
          · exact .of_eq h (.waits (Or.inl hstage) (fun h => absurd h hlooks) (fun _ _ => rfl)
              (Or.inl rfl))
      · rename_i hstage
        split at h
        · rename_i hexit
          exact .of_eq h (.ends hstage hexit)
        · rename_i hexit
          have hwaits : exit = false := by simpa using hexit
          exact .of_eq h (.waits (Or.inr ⟨Or.inl hstage, hwaits⟩) (fun _ => hwaits)
            (by simp [hstage]) w.thread.enters_cases)
      · rename_i hstage
        split at h
        · rename_i hexit
          exact .of_eq h (.falls hstage hexit)
        · rename_i hexit
          have hwaits : exit = false := by simpa using hexit
          exact .of_eq h (.waits (Or.inr ⟨Or.inr hstage, hwaits⟩) (fun _ => hwaits)
            (by simp [hstage]) (Or.inl rfl))
      · exact absurd h hnone
  | shutdown =>
      simp only [step] at h
      split at h
      · rename_i hstage
        split at h
        · rename_i hselects
          refine .of_eq h (.takes rfl (Or.inr ⟨rfl, hstage⟩)
            (by simp [Thread.takesMessages, hselects]) ?_)
          split
          · exact Or.inr ⟨rfl, hstage⟩
          · exact Or.inl rfl
        · exact absurd h hnone
      · exact absurd h hnone
  | wake =>
      simp only [step] at h
      split at h
      · rename_i hstage
        exact .of_eq h (.wakes (by simp) hstage (Or.inl rfl))
      · exact absurd h hnone
  | ask =>
      simp only [step] at h
      split at h
      · rename_i hstage
        split at h
        · exact .of_eq h (.wakes (by simp) hstage (Or.inr rfl))
        · exact absurd h hnone
      · exact absurd h hnone
  | finish =>
      simp only [step] at h
      split at h
      · rename_i hstage
        exact .of_eq h (.returns (by simp) (Or.inl hstage) w.thread.head_cases)
      · exact absurd h hnone
  | answer =>
      simp only [step] at h
      split at h
      · rename_i hstage
        exact .of_eq h (.returns (by simp) (Or.inr (Or.inr hstage)) w.thread.head_cases)
      · rename_i hstage
        exact .of_eq h (.returns (by simp) (Or.inr (Or.inl hstage)) w.thread.head_cases)
      · exact absurd h hnone
  | restart =>
      have hreturns : w.stage = .working ∨ w.stage = .asking ∨ w.stage = .connecting →
          (if w.thread.hasInnerLoop then some (exit, messages, WorkerStage.checking) else none) =
            some (exit', n, stage) →
          w.Step exit messages .restart exit' n stage := by
        intro hstage heq
        split at heq
        · exact .of_eq heq (.returns (by simp) hstage (Or.inl rfl))
        · exact absurd heq hnone
      simp only [step] at h
      split at h
      · rename_i hstage
        exact hreturns (Or.inr (Or.inr hstage)) h
      · rename_i hstage
        exact hreturns (Or.inl hstage) h
      · exact absurd h hnone
  | leave =>
      simp only [step] at h
      split at h
      · rename_i hstage
        split at h
        · rename_i hleave
          exact .of_eq h (.leave hstage hleave)
        · exact absurd h hnone
      · exact absurd h hnone
  | panic =>
      simp only [step] at h
      split at h
      · rename_i hstage
        exact .of_eq h (.panic (Or.inl hstage))
      · rename_i hstage
        exact .of_eq h (.panic (Or.inr hstage))
      · exact absurd h hnone
  | hookSend =>
      simp only [step] at h
      split at h
      · rename_i hstage
        split at h
        · rename_i hroom
          exact .of_eq h (.hookSend hstage hroom)
        · exact absurd h hnone
      · exact absurd h hnone

namespace Shutdown

variable {s s' : Shutdown}

/-- The effects of a step of one of the threads. -/
theorem stepWorker_cases {i : Nat} {w : Worker} {e : WorkerEvent}
    (h : s.stepWorker i w e = some s') :
    ∃ exit n stage, w.Step s.exit s.shutdownReceiver e exit n stage ∧
      s' = { s with exit, shutdownReceiver := n, workers := s.workers.set i { w with stage } } := by
  rcases Option.map_eq_some_iff.mp h with ⟨⟨exit, n, stage⟩, hstep, rfl⟩
  exact ⟨exit, n, stage, Worker.step_cases hstep, rfl⟩

/-- The effects of a step. -/
theorem step_cases {e : ShutdownEvent} (h : s.step e = some s') :
    s.main.finished = false ∧ Step s e s' := by
  unfold step at h
  split at h
  · contradiction
  · rename_i hmain
    refine ⟨by simpa using hmain, ?_⟩
    cases e with
    | signal =>
        simp only at h
        split at h
        · rename_i hidle
          exact Option.some.inj h ▸ Step.signal hidle
        · contradiction
    | notify =>
        simp only at h
        split at h
        · contradiction
        · rename_i n hn
          split at h
          · rename_i hroom
            exact Option.some.inj h ▸ Step.notify hn hroom
          · contradiction
    | worker i e =>
        simp only at h
        split at h
        · rename_i w hi
          rcases stepWorker_cases h with ⟨exit, n, stage, hstep, rfl⟩
          exact Step.worker hi hstep
        · contradiction
    | join =>
        simp only at h
        split at h
        · rename_i handle hjoining
          split at h
          · rename_i hlast
            exact Option.some.inj h ▸ Step.returns (hlast ▸ hjoining)
          · rename_i hne
            split at h
            · rename_i hstage
              rcases Option.map_eq_some_iff.mp hstage with ⟨w, hw, hpanic⟩
              exact Option.some.inj h ▸ Step.joinPanics hjoining hw hpanic
            · rename_i reason hother hstage
              rcases Option.map_eq_some_iff.mp hstage with ⟨w, hw, hstopped⟩
              have hpanics : w.stage.panics = false := by
                rw [hstopped]
                cases reason with
                | panic => exact absurd rfl hother
                | _ => rfl
              exact Option.some.inj h ▸
                Step.joins hjoining hne hw (by rw [hstopped]; rfl) hpanics
            · contradiction
        · contradiction
    | mainHookSend =>
        simp only at h
        split at h
        · rename_i hpanicking
          split at h
          · rename_i hroom
            exact Option.some.inj h ▸ Step.mainHookSend hpanicking hroom
          · contradiction
        · contradiction

end Shutdown

end ShredstreamProxy
