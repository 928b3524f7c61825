import ShredstreamProxy.Proxy.Batches
import ShredstreamProxy.Shutdown.Termination

/-!
# The proxy follows the shutdown protocol

The machine of the whole proxy has the exit flag, the channel and the stages of its threads among
many other things.  Forgetting the other things, every step of the proxy is some steps of the
shutdown protocol, or none.  So what the protocol guarantees holds in every interleaving of the
proxy.

Main results:

- Theorem {lit}`Shutdown.exists_run_of_move`: the moves of one thread are runs of the protocol.
- Theorem {lit}`Proxy.step_moves`: a step of the proxy moves at most one thread.
- Theorem {lit}`proxy_follows_protocol`: every run of the proxy is a run of the protocol.
-/

namespace ShredstreamProxy

/-! ## Stages of the proxy as stages of the protocol -/

/-- The stages are the same, up to the reason for which a thread ended. -/
def WorkerStage.Like (a b : WorkerStage) : Prop :=
  a = b ∨ a.isStopped = true ∧ b.isStopped = true

def ForwarderStage.toWorker : ForwarderStage → WorkerStage
  | .starting | .checking => .checking
  | .selecting => .waiting
  | .forwarding _ _ => .working
  | .panicking => .panicking
  | .stopped => .stopped .exit

def AccessoryStage.toWorker : AccessoryStage → WorkerStage
  | .checking => .checking
  | .selecting => .waiting
  | .reporting => .working
  | .stopped => .stopped .exit

def RefreshStage.toWorker : RefreshStage → WorkerStage
  | .checking => .checking
  | .selecting => .waiting
  | .stopped => .stopped .exit

def ReconstructorStage.toWorker : ReconstructorStage → WorkerStage
  | .checking => .checking
  | .receiving => .waiting
  | .draining => .working
  | .stopped => .stopped .exit

/-- The threads of a proxy. -/
def ProxyConfig.threadArgs (cfg : ProxyConfig) (grpcServicePort : UInt16) : ThreadArgs where
  shredstream := cfg.shredstream
  grpcServicePort := if cfg.shouldReconstructShreds then some grpcServicePort else none
  sockets := cfg.numThreads
  useDiscoveryService := cfg.discoveredEndpointsPort.isSome
  prometheusBindAddr := cfg.prometheusBindAddr

/-- What the protocol sees of the proxy. -/
structure ProxyControl where
  exit : Bool
  shutdownReceiver : Nat
  notifier : Nat
  forwarders : List WorkerStage
  accessory : WorkerStage
  refresh : WorkerStage
  reconstructor : WorkerStage
  others : OtherThread → WorkerStage

def Proxy.control (p : Proxy) : ProxyControl where
  exit := p.exit
  shutdownReceiver := p.shutdownReceiver
  notifier := p.notifier
  forwarders := p.forwarders.map fun t => t.stage.toWorker
  accessory := p.accessoryStage.toWorker
  refresh := p.refreshStage.toWorker
  reconstructor := p.reconstructor.toWorker
  others := p.others

namespace ProxyControl

/-- The forwarders in the order of the protocol. -/
def forwarderWorkers (cfg : ProxyConfig) (c : ProxyControl) : List Worker :=
  c.forwarders.map fun stage => ⟨.forwarder cfg.discoveredEndpointsPort.isSome, stage⟩

/-- A thread that only takes part in the shutdown, if it is started. -/
def otherWorker (cfg : ProxyConfig) (c : ProxyControl) (thread : OtherThread) : List Worker :=
  if cfg.spawns thread then [⟨thread.toThread, c.others thread⟩] else []

/-- The refresh thread, if there is one. -/
def refreshWorker (cfg : ProxyConfig) (c : ProxyControl) : List Worker :=
  if cfg.discoveredEndpointsPort.isSome then [⟨.destinationRefresh, c.refresh⟩] else []

/-- The reconstructor, if there is one. -/
def reconstructorWorker (cfg : ProxyConfig) (c : ProxyControl) : List Worker :=
  if cfg.shouldReconstructShreds then [⟨.reconstructor, c.reconstructor⟩] else []

/-- The threads of the proxy, in the order of the protocol. -/
def workers (cfg : ProxyConfig) (c : ProxyControl) : List Worker :=
  c.otherWorker cfg .heartbeat ++ c.forwarderWorkers cfg ++ c.otherWorker cfg .reportMetrics ++
    [⟨.accessory, c.accessory⟩] ++ c.refreshWorker cfg ++ c.otherWorker cfg .server ++
    c.otherWorker cfg .prometheus ++ c.reconstructorWorker cfg

end ProxyControl

/-! ## Moves of one thread -/

/-- What the proxy can do with one thread, the exit flag and the messages.  Work of which the proxy
shows nothing may be in between. -/
inductive Thread.Move (thread : Thread) (exit : Bool) (messages : Nat) :
    WorkerStage → WorkerStage → Bool → Nat → Prop
  | stays (stage : WorkerStage) : Move thread exit messages stage stage exit messages
  | exits (hlooks : thread.looksAtExit = true) (hexit : exit = true) :
      Move thread exit messages .checking (.stopped .exit) exit messages
  | waits (hlooks : thread.looksAtExit = true) (hloop : thread.hasInnerLoop = false)
      (hexit : exit = false) : Move thread exit messages .checking .waiting exit messages
  | wakes : Move thread exit messages .waiting .working exit messages
  | finishes (hloop : thread.hasInnerLoop = false) :
      Move thread exit messages .working .checking exit messages
  | ticks (hloop : thread.hasInnerLoop = false) :
      Move thread exit messages .waiting .checking exit messages
  | leaves (hleave : thread.mayLeave = true) :
      Move thread exit messages .working (.stopped .exit) exit messages
  | closes (hleave : thread.mayLeave = true) :
      Move thread exit messages .waiting (.stopped .exit) exit messages
  | panics : Move thread exit messages .working .panicking true messages
  | hookSends (hroom : messages < maxShutdownMessages) :
      Move thread exit messages .panicking (.stopped .exit) exit (messages + 1)
  | takes {n : Nat} (hselects : thread.selectsShutdown = true)
      (hloop : thread.hasInnerLoop = false) (hn : messages = n + 1) :
      Move thread exit messages .waiting (.stopped .exit) exit n
  | steps {e : WorkerEvent} {stage stage' : WorkerStage} {exit' : Bool} {n : Nat}
      (h : Worker.step exit messages ⟨thread, stage⟩ e = some (exit', n, stage')) :
      Move thread exit messages stage stage' exit' n

namespace Shutdown

variable {s : Shutdown}

/-- A run of one step. -/
theorem run_one {e : ShutdownEvent} {s' : Shutdown} (h : s.step e = some s') :
    EventRun.run step s [e] = some s' := by
  simp [EventRun.run, h]

/-- A run of two steps. -/
theorem run_two {e e' : ShutdownEvent} {s' s'' : Shutdown} (h : s.step e = some s')
    (h' : s'.step e' = some s'') : EventRun.run step s [e, e'] = some s'' := by
  simp [EventRun.run, h, h']

/-- The process after thread `k` has moved. -/
def afterStep (s : Shutdown) (k : Nat) (thread : Thread) (next : Bool × Nat × WorkerStage) :
    Shutdown :=
  { s with
    exit := next.1
    shutdownReceiver := next.2.1
    workers := s.workers.set k ⟨thread, next.2.2⟩ }

/-- A step of one thread is one of the process. -/
theorem step_eq_afterStep {k : Nat} {thread : Thread} {stage : WorkerStage}
    {next : Bool × Nat × WorkerStage} {e : WorkerEvent} (hmain : s.main.finished = false)
    (hk : s.workers[k]? = some ⟨thread, stage⟩)
    (h : Worker.step s.exit s.shutdownReceiver ⟨thread, stage⟩ e = some next) :
    s.step (.worker k e) = some (s.afterStep k thread next) := by
  rw [step_worker hmain hk, stepWorker, h]
  rfl

/-- After two steps of one thread only the last stage is seen. -/
theorem afterStep_afterStep (s : Shutdown) (k : Nat) (thread : Thread)
    (next next' : Bool × Nat × WorkerStage) :
    (s.afterStep k thread next).afterStep k thread next' = s.afterStep k thread next' := by
  simp [afterStep]

/-- The thread that has moved stands where it has moved to. -/
theorem getElem?_afterStep {k : Nat} {w : Worker} (hk : s.workers[k]? = some w) (thread : Thread)
    (next : Bool × Nat × WorkerStage) :
    (s.afterStep k thread next).workers[k]? = some ⟨thread, next.2.2⟩ := by
  simp [afterStep, (List.getElem?_eq_some_iff.mp hk).1]

/-- The moves of one thread are runs of the protocol. -/
theorem exists_run_of_move {k : Nat} {thread : Thread} {a b a' : WorkerStage} {exit : Bool}
    {n : Nat} (hmain : s.main.finished = false) (hk : s.workers[k]? = some ⟨thread, a'⟩)
    (hlike : a.Like a')
    (h : thread.Move s.exit s.shutdownReceiver a b exit n) :
    ∃ events b', b.Like b' ∧ signals events = 0 ∧
      EventRun.run step s events = some
        { s with exit, shutdownReceiver := n, workers := s.workers.set k ⟨thread, b'⟩ } := by
  have hsame : a.isStopped = false → a' = a := by
    intro hrunning
    rcases hlike with heq | ⟨hstopped, _⟩
    · exact heq.symm
    · rw [hrunning] at hstopped
      contradiction
  -- one event, or waking up and then one event
  have hone : ∀ (e : WorkerEvent) (b' : WorkerStage), b.Like b' →
      Worker.step s.exit s.shutdownReceiver ⟨thread, a'⟩ e = some (exit, n, b') →
      ∃ events b', b.Like b' ∧ signals events = 0 ∧
        EventRun.run step s events = some (s.afterStep k thread (exit, n, b')) := by
    intro e b' hlike' hstep
    exact ⟨[.worker k e], b', hlike', rfl, run_one (step_eq_afterStep hmain hk hstep)⟩
  have htwo : ∀ (e : WorkerEvent) (b' : WorkerStage), a' = .waiting → b.Like b' →
      Worker.step s.exit s.shutdownReceiver ⟨thread, .working⟩ e = some (exit, n, b') →
      ∃ events b', b.Like b' ∧ signals events = 0 ∧
        EventRun.run step s events = some (s.afterStep k thread (exit, n, b')) := by
    rintro e b' rfl hlike' hstep
    have hwake : s.step (.worker k .wake) =
        some (s.afterStep k thread (s.exit, s.shutdownReceiver, .working)) :=
      step_eq_afterStep hmain hk rfl
    have hnext :=
      step_eq_afterStep (s := s.afterStep k thread (s.exit, s.shutdownReceiver, .working))
        (e := e) hmain (getElem?_afterStep hk thread _) hstep
    rw [afterStep_afterStep] at hnext
    exact ⟨[.worker k .wake, .worker k e], b', hlike', rfl, run_two hwake hnext⟩
  cases h with
  | stays =>
      refine ⟨[], a', hlike, rfl, ?_⟩
      rcases List.getElem?_eq_some_iff.mp hk with ⟨hlt, heq⟩
      rw [← heq, List.set_getElem_self]
      rfl
  | exits hlooks hexit =>
      obtain rfl := hsame rfl
      exact hone .check _ (Or.inl rfl) (by simp [Worker.step, hlooks, hexit])
  | waits hlooks hloop hexit =>
      obtain rfl := hsame rfl
      exact hone .check _ (Or.inl rfl) (by simp [Worker.step, hlooks, hexit, Thread.enters, hloop])
  | wakes =>
      obtain rfl := hsame rfl
      exact hone .wake _ (Or.inl rfl) rfl
  | finishes hloop =>
      obtain rfl := hsame rfl
      exact hone .finish _ (Or.inl rfl) (by simp [Worker.step, Thread.head, hloop])
  | ticks hloop =>
      exact htwo .finish _ (hsame rfl) (Or.inl rfl) (by simp [Worker.step, Thread.head, hloop])
  | leaves hleave =>
      obtain rfl := hsame rfl
      exact hone .leave (.stopped .left) (Or.inr ⟨rfl, rfl⟩) (by simp [Worker.step, hleave])
  | closes hleave =>
      exact htwo .leave (.stopped .left) (hsame rfl) (Or.inr ⟨rfl, rfl⟩)
        (by simp [Worker.step, hleave])
  | panics =>
      obtain rfl := hsame rfl
      exact hone .panic _ (Or.inl rfl) rfl
  | hookSends hroom =>
      obtain rfl := hsame rfl
      exact hone .hookSend (.stopped .panic) (Or.inr ⟨rfl, rfl⟩) (by simp [Worker.step, hroom])
  | takes hselects hloop hn =>
      obtain rfl := hsame rfl
      exact hone .shutdown (.stopped .message) (Or.inr ⟨rfl, rfl⟩)
        (by simp [Worker.step, hselects, hloop, hn])
  | @steps e _ _ _ _ hstep =>
      obtain rfl := hsame (Worker.step_cases hstep).isStopped_eq
      exact hone e _ (Or.inl rfl) hstep

end Shutdown

/-! ## Steps of the proxy -/

/-- One thread of the proxy moves. -/
def ProxyControl.Moved (cfg : ProxyConfig) (c c' : ProxyControl) : Prop :=
  c'.notifier = c.notifier ∧ ∃ k thread a b, (c.workers cfg)[k]? = some ⟨thread, a⟩ ∧
    c'.workers cfg = (c.workers cfg).set k ⟨thread, b⟩ ∧
    thread.Move c.exit c.shutdownReceiver a b c'.exit c'.shutdownReceiver

namespace ProxyControl.Moved

variable {cfg : ProxyConfig} {c c' : ProxyControl} {exit : Bool} {messages : Nat}
  {stage : WorkerStage}

/-- A thread moves where it stands in the list. -/
theorem of_split (before after : List Worker) {thread : Thread} {a b : WorkerStage}
    (hnotifier : c'.notifier = c.notifier) (h : c.workers cfg = before ++ ⟨thread, a⟩ :: after)
    (h' : c'.workers cfg = before ++ ⟨thread, b⟩ :: after)
    (hmove : thread.Move c.exit c.shutdownReceiver a b c'.exit c'.shutdownReceiver) :
    Moved cfg c c' := by
  refine ⟨hnotifier, before.length, thread, a, b, ?_, ?_, hmove⟩
  · rw [h]
    simp
  · rw [h, h']
    simp

/-- A forwarder moves. -/
theorem of_forwarder {i : Nat} {old : WorkerStage} (hi : c.forwarders[i]? = some old)
    (h : (Thread.forwarder cfg.discoveredEndpointsPort.isSome).Move c.exit c.shutdownReceiver old
      stage exit messages)
    (hc' : c' = { c with
      exit, shutdownReceiver := messages, forwarders := c.forwarders.set i stage }) :
    Moved cfg c c' := by
  subst hc'
  rcases List.getElem?_eq_some_iff.mp hi with ⟨hlt, rfl⟩
  have hsplit : c.forwarders =
      c.forwarders.take i ++ c.forwarders[i] :: c.forwarders.drop (i + 1) := by
    rw [List.getElem_cons_drop, List.take_append_drop]
  have hset : c.forwarders.set i stage =
      c.forwarders.take i ++ stage :: c.forwarders.drop (i + 1) := by
    rw [List.set_eq_take_append_cons_drop, if_pos hlt]
  let worker : WorkerStage → Worker := fun stage =>
    ⟨.forwarder cfg.discoveredEndpointsPort.isSome, stage⟩
  refine of_split (c.otherWorker cfg .heartbeat ++ (c.forwarders.take i).map worker)
    ((c.forwarders.drop (i + 1)).map worker ++ (c.otherWorker cfg .reportMetrics ++
      (⟨.accessory, c.accessory⟩ :: (c.refreshWorker cfg ++ (c.otherWorker cfg .server ++
        (c.otherWorker cfg .prometheus ++ c.reconstructorWorker cfg)))))) rfl ?_ ?_ h
  · have hworkers : c.forwarderWorkers cfg = (c.forwarders.take i).map worker ++
        worker c.forwarders[i] :: (c.forwarders.drop (i + 1)).map worker := by
      rw [← List.map_cons, ← List.map_append, ← hsplit]
      rfl
    rw [workers, hworkers]
    simp only [List.append_assoc, List.cons_append, List.nil_append]
    rfl
  · have hworkers : forwarderWorkers cfg { c with
          exit, shutdownReceiver := messages, forwarders := c.forwarders.set i stage } =
        (c.forwarders.take i).map worker ++
          worker stage :: (c.forwarders.drop (i + 1)).map worker := by
      rw [← List.map_cons, ← List.map_append, ← hset]
      rfl
    rw [workers, hworkers]
    simp only [List.append_assoc, List.cons_append, List.nil_append]
    rfl

/-- The accessory thread moves. -/
theorem of_accessory (h : Thread.accessory.Move c.exit c.shutdownReceiver c.accessory stage exit
      messages)
    (hc' : c' = { c with exit, shutdownReceiver := messages, accessory := stage }) :
    Moved cfg c c' := by
  subst hc'
  refine of_split (c.otherWorker cfg .heartbeat ++ (c.forwarderWorkers cfg ++
    c.otherWorker cfg .reportMetrics)) (c.refreshWorker cfg ++ (c.otherWorker cfg .server ++
      (c.otherWorker cfg .prometheus ++ c.reconstructorWorker cfg))) rfl ?_ ?_ h
  · simp only [workers, List.append_assoc, List.cons_append, List.nil_append]
  · simp only [workers, List.append_assoc, List.cons_append, List.nil_append]
    rfl

/-- The refresh thread moves. -/
theorem of_refresh (hport : cfg.discoveredEndpointsPort.isSome = true)
    (h : Thread.destinationRefresh.Move c.exit c.shutdownReceiver c.refresh stage exit messages)
    (hc' : c' = { c with exit, shutdownReceiver := messages, refresh := stage }) :
    Moved cfg c c' := by
  subst hc'
  have hthere : ∀ c : ProxyControl, c.refreshWorker cfg = [⟨.destinationRefresh, c.refresh⟩] :=
    fun _ => if_pos hport
  refine of_split (c.otherWorker cfg .heartbeat ++ (c.forwarderWorkers cfg ++
    (c.otherWorker cfg .reportMetrics ++ [⟨.accessory, c.accessory⟩])))
    (c.otherWorker cfg .server ++ (c.otherWorker cfg .prometheus ++ c.reconstructorWorker cfg))
    rfl ?_ ?_ h
  · simp only [workers, hthere, List.append_assoc, List.cons_append, List.nil_append]
  · simp only [workers, hthere, List.append_assoc, List.cons_append, List.nil_append]
    rfl

/-- The reconstructor moves. -/
theorem of_reconstructor (hshould : cfg.shouldReconstructShreds = true)
    (h : Thread.reconstructor.Move c.exit c.shutdownReceiver c.reconstructor stage exit messages)
    (hc' : c' = { c with exit, shutdownReceiver := messages, reconstructor := stage }) :
    Moved cfg c c' := by
  subst hc'
  have hthere : ∀ c : ProxyControl,
      c.reconstructorWorker cfg = [⟨.reconstructor, c.reconstructor⟩] := fun _ => if_pos hshould
  refine of_split (c.otherWorker cfg .heartbeat ++ (c.forwarderWorkers cfg ++
    (c.otherWorker cfg .reportMetrics ++ (⟨.accessory, c.accessory⟩ :: (c.refreshWorker cfg ++
      (c.otherWorker cfg .server ++ c.otherWorker cfg .prometheus)))))) [] rfl ?_ ?_ h
  · simp only [workers, hthere, List.append_assoc, List.cons_append, List.nil_append]
  · simp only [workers, hthere, List.append_assoc, List.cons_append, List.nil_append]
    rfl

/-- The threads that stand before one of the other threads. -/
def threadsBefore (cfg : ProxyConfig) (c : ProxyControl) : OtherThread → List Worker
  | .heartbeat => []
  | .reportMetrics => c.otherWorker cfg .heartbeat ++ c.forwarderWorkers cfg
  | .server =>
      c.otherWorker cfg .heartbeat ++ (c.forwarderWorkers cfg ++
        (c.otherWorker cfg .reportMetrics ++ (⟨.accessory, c.accessory⟩ :: c.refreshWorker cfg)))
  | .prometheus =>
      c.otherWorker cfg .heartbeat ++ (c.forwarderWorkers cfg ++
        (c.otherWorker cfg .reportMetrics ++ (⟨.accessory, c.accessory⟩ ::
          (c.refreshWorker cfg ++ c.otherWorker cfg .server))))

/-- The threads that stand after one of the other threads. -/
def threadsAfter (cfg : ProxyConfig) (c : ProxyControl) : OtherThread → List Worker
  | .heartbeat =>
      c.forwarderWorkers cfg ++ (c.otherWorker cfg .reportMetrics ++
        (⟨.accessory, c.accessory⟩ :: (c.refreshWorker cfg ++ (c.otherWorker cfg .server ++
          (c.otherWorker cfg .prometheus ++ c.reconstructorWorker cfg)))))
  | .reportMetrics =>
      ⟨.accessory, c.accessory⟩ :: (c.refreshWorker cfg ++ (c.otherWorker cfg .server ++
        (c.otherWorker cfg .prometheus ++ c.reconstructorWorker cfg)))
  | .server => c.otherWorker cfg .prometheus ++ c.reconstructorWorker cfg
  | .prometheus => c.reconstructorWorker cfg

theorem workers_eq_around (cfg : ProxyConfig) (c : ProxyControl) (thread : OtherThread) :
    c.workers cfg =
      threadsBefore cfg c thread ++ (c.otherWorker cfg thread ++ threadsAfter cfg c thread) := by
  cases thread <;>
    simp only [workers, threadsBefore, threadsAfter, List.append_assoc, List.cons_append,
      List.nil_append]

/-- A thread that moves leaves those around it where they are. -/
theorem around_eq {thread : OtherThread} (hc' : c' = { c with
      exit, shutdownReceiver := messages, others := Function.update c.others thread stage }) :
    threadsBefore cfg c' thread = threadsBefore cfg c thread ∧
      threadsAfter cfg c' thread = threadsAfter cfg c thread := by
  have hothers : ∀ other, other ≠ thread → c'.otherWorker cfg other = c.otherWorker cfg other := by
    intro other hne
    simp [otherWorker, hc', hne]
  have hforwarders : c'.forwarderWorkers cfg = c.forwarderWorkers cfg := by rw [hc']; rfl
  have haccessory : c'.accessory = c.accessory := by rw [hc']
  have hrefresh : c'.refreshWorker cfg = c.refreshWorker cfg := by rw [hc']; rfl
  have hreconstructor : c'.reconstructorWorker cfg = c.reconstructorWorker cfg := by rw [hc']; rfl
  cases thread <;>
    simp [threadsBefore, threadsAfter, hothers, hforwarders, haccessory, hrefresh, hreconstructor]

/-- One of the other threads moves. -/
theorem of_other {thread : OtherThread} (hspawns : cfg.spawns thread = true)
    (h : thread.toThread.Move c.exit c.shutdownReceiver (c.others thread) stage exit messages)
    (hc' : c' = { c with
      exit, shutdownReceiver := messages, others := Function.update c.others thread stage }) :
    Moved cfg c c' := by
  have hthere : c.otherWorker cfg thread = [⟨thread.toThread, c.others thread⟩] := if_pos hspawns
  have hmoved : c'.otherWorker cfg thread = [⟨thread.toThread, stage⟩] := by
    simp [otherWorker, hspawns, hc']
  have haround : threadsBefore cfg c' thread = threadsBefore cfg c thread ∧
      threadsAfter cfg c' thread = threadsAfter cfg c thread := around_eq hc'
  have hmove : thread.toThread.Move c.exit c.shutdownReceiver (c.others thread) stage c'.exit
      c'.shutdownReceiver := by
    rw [hc']
    exact h
  refine of_split (threadsBefore cfg c thread) (threadsAfter cfg c thread) ?_ ?_ ?_ hmove
  · rw [hc']
  · rw [workers_eq_around cfg c thread, hthere, List.singleton_append]
  · rw [workers_eq_around cfg c' thread, hmoved, haround.1, haround.2, List.singleton_append]

/-- The accessory thread is always there, and may stay where it is. -/
theorem of_same (hc' : c' = c) : Moved cfg c c' :=
  of_accessory (.stays _) hc'

end ProxyControl.Moved

namespace Proxy

variable {cfg : ProxyConfig} {p p' : Proxy}

open ProxyControl

/-- One thread moves, and threads that are not there stay away. -/
structure ThreadMoves (cfg : ProxyConfig) (p p' : Proxy) : Prop where
  moved : Moved cfg p.control p'.control
  refresh : p.refreshStage = .stopped → p'.refreshStage = .stopped
  reconstructor : p.reconstructor = .stopped → p'.reconstructor = .stopped

/-- A step of a forwarder moves its thread of the protocol. -/
theorem stepForwarder_moves {i : Nat} {t : ForwarderThread} {e : ForwarderEvent}
    (hi : p.forwarders[i]? = some t) (h : p.stepForwarder cfg i t e = some p') :
    ThreadMoves cfg p p' := by
  have hstage : p.control.forwarders[i]? = some t.stage.toWorker := by simp [control, hi]
  have hmove : ∀ t' exit messages,
      (Thread.forwarder cfg.discoveredEndpointsPort.isSome).Move p.exit p.shutdownReceiver
        t.stage.toWorker t'.stage.toWorker exit messages →
      some { p with
        exit, shutdownReceiver := messages, forwarders := p.forwarders.set i t' } = some p' →
      ThreadMoves cfg p p' := by
    rintro t' exit messages hmove heq
    obtain rfl := Option.some.inj heq
    exact ⟨Moved.of_forwarder hstage hmove (by simp [control, List.map_set]), id, id⟩
  cases e with
  | load =>
      simp only [stepForwarder] at h
      split at h
      · rename_i hs
        rw [hs] at hmove
        exact hmove _ _ _ (.stays _) h
      · contradiction
  | check =>
      simp only [stepForwarder] at h
      split at h
      · rename_i hs
        rw [hs] at hmove
        split at h
        · rename_i hexit
          exact hmove _ _ _ (.exits rfl hexit) h
        · rename_i hexit
          exact hmove _ _ _ (.waits rfl rfl (by simpa using hexit)) h
      · contradiction
  | recv f =>
      simp only [stepForwarder] at h
      split at h
      · rename_i hs _
        rw [hs] at hmove
        split at h
        · exact hmove _ _ _ .wakes h
        · contradiction
      · contradiction
  | recvError =>
      simp only [stepForwarder] at h
      split at h
      · rename_i hs _ _
        rw [hs] at hmove
        exact hmove _ _ _ (.closes rfl) h
      · contradiction
  | refreshTick =>
      simp only [stepForwarder] at h
      split at h
      · rename_i hs _
        rw [hs] at hmove
        exact hmove _ _ _ (.ticks rfl) h
      · contradiction
  | shutdown =>
      simp only [stepForwarder] at h
      split at h
      · rename_i n hs hn
        rw [hs] at hmove
        exact hmove _ _ _ (.takes rfl rfl hn) h
      · contradiction
  | op =>
      simp only [stepForwarder] at h
      split at h
      · rename_i f op ops hs
        obtain rfl := Option.some.inj h
        refine ⟨Moved.of_forwarder hstage (.stays _) ?_, ?_, ?_⟩
        · rw [exec_eq]
          simp [control, setForwarder, List.map_set, hs, ForwarderStage.toWorker]
        · rw [exec_eq]
          exact id
        · rw [exec_eq]
          exact id
      · contradiction
  | finish =>
      simp only [stepForwarder] at h
      split at h
      · rename_i f hs
        rw [hs] at hmove
        split at h
        · exact hmove _ _ _ (.finishes rfl) h
        · exact hmove _ _ _ (.leaves rfl) h
        · exact hmove _ _ _ .panics h
      · contradiction
  | hookSend =>
      simp only [stepForwarder] at h
      split at h
      · rename_i hs
        rw [hs] at hmove
        split at h
        · rename_i hroom
          exact hmove _ _ _ (.hookSends hroom) h
        · contradiction
      · contradiction

/-- A step of the refresh thread moves its thread of the protocol. -/
theorem stepRefreshThread_moves {e : RefreshThreadEvent}
    (hport : p.refreshStage ≠ .stopped → cfg.discoveredEndpointsPort.isSome = true)
    (h : p.stepRefreshThread cfg e = some p') : ThreadMoves cfg p p' := by
  have hmove : ∀ stage refresh messages, p.refreshStage ≠ .stopped →
      Thread.destinationRefresh.Move p.exit p.shutdownReceiver p.refreshStage.toWorker
        stage.toWorker p.exit messages →
      some { p with refreshStage := stage, refresh, shutdownReceiver := messages } = some p' →
      ThreadMoves cfg p p' := by
    rintro stage refresh messages hthere hmove heq
    obtain rfl := Option.some.inj heq
    exact ⟨Moved.of_refresh (hport hthere) hmove rfl, fun hs => absurd hs hthere, id⟩
  cases e with
  | check =>
      simp only [stepRefreshThread] at h
      split at h
      · rename_i hs
        rw [hs] at hmove
        cases hexit : p.exit with
        | true => exact hmove .stopped _ _ (by simp) (.exits rfl hexit) (by rw [← h, hexit]; rfl)
        | false =>
            exact hmove .selecting _ _ (by simp) (.waits rfl rfl hexit) (by rw [← h, hexit]; rfl)
      · contradiction
  | fetchSocketTick fetch lookup =>
      simp only [stepRefreshThread] at h
      split at h
      · rename_i hs _
        rw [hs] at hmove
        exact hmove _ _ _ (by simp) (.ticks rfl) h
      · contradiction
  | metricsTick =>
      simp only [stepRefreshThread] at h
      split at h
      · rename_i hs
        rw [hs] at hmove
        exact hmove _ _ _ (by simp) (.ticks rfl) h
      · contradiction
  | shutdown =>
      simp only [stepRefreshThread] at h
      split at h
      · rename_i n hs hn
        rw [hs] at hmove
        exact hmove _ _ _ (by simp) (.takes rfl rfl hn) h
      · contradiction

/-- A step of the accessory thread moves its thread of the protocol. -/
theorem stepAccessory_moves {e : AccessoryEvent} (h : p.stepAccessory e = some p') :
    ThreadMoves cfg p p' := by
  have hmove : ∀ stage accessory metrics messages,
      Thread.accessory.Move p.exit p.shutdownReceiver p.accessoryStage.toWorker stage.toWorker
        p.exit messages →
      some { p with accessoryStage := stage, accessory, metrics, shutdownReceiver := messages } =
        some p' →
      ThreadMoves cfg p p' := by
    rintro stage accessory metrics messages hmove heq
    obtain rfl := Option.some.inj heq
    exact ⟨Moved.of_accessory hmove rfl, id, id⟩
  cases e with
  | check =>
      simp only [stepAccessory] at h
      split at h
      · rename_i hs
        rw [hs] at hmove
        cases hexit : p.exit with
        | true => exact hmove .stopped _ _ _ (.exits rfl hexit) (by rw [← h, hexit]; rfl)
        | false => exact hmove .selecting _ _ _ (.waits rfl rfl hexit) (by rw [← h, hexit]; rfl)
      · contradiction
  | metricsTick =>
      simp only [stepAccessory] at h
      split at h
      · rename_i hs
        rw [hs] at hmove
        exact hmove _ _ _ _ .wakes h
      · contradiction
  | op =>
      simp only [stepAccessory] at h
      split at h
      · obtain rfl := Option.some.inj h
        exact ⟨Moved.of_same rfl, id, id⟩
      · contradiction
  | retain addr =>
      simp only [stepAccessory] at h
      split at h
      · split at h
        · obtain rfl := Option.some.inj h
          exact ⟨Moved.of_same rfl, id, id⟩
        · contradiction
      · contradiction
  | finish =>
      simp only [stepAccessory] at h
      split at h
      · rename_i hs _
        rw [hs] at hmove
        exact hmove _ _ _ _ (.finishes rfl) h
      · contradiction
  | deduperResetTick =>
      simp only [stepAccessory] at h
      split at h
      · rename_i hs
        rw [hs] at hmove
        exact hmove _ _ _ _ (.ticks rfl) h
      · contradiction
  | shutdown =>
      simp only [stepAccessory] at h
      split at h
      · rename_i n hs hn
        rw [hs] at hmove
        exact hmove _ _ _ _ (.takes rfl rfl hn) h
      · contradiction

/-- A step of the reconstructor moves its thread of the protocol. -/
theorem stepReconstructor_moves {e : ReconstructorEvent}
    (hshould : p.reconstructor ≠ .stopped → cfg.shouldReconstructShreds = true)
    (h : p.stepReconstructor cfg e = some p') : ThreadMoves cfg p p' := by
  have hmove : ∀ stage reconstructRx service, p.reconstructor ≠ .stopped →
      Thread.reconstructor.Move p.exit p.shutdownReceiver p.reconstructor.toWorker
        stage.toWorker p.exit p.shutdownReceiver →
      some { p with reconstructor := stage, reconstructRx, service } = some p' →
      ThreadMoves cfg p p' := by
    rintro stage reconstructRx service hthere hmove heq
    obtain rfl := Option.some.inj heq
    exact ⟨Moved.of_reconstructor (hshould hthere) hmove rfl, id, fun hs => absurd hs hthere⟩
  cases e with
  | check =>
      simp only [stepReconstructor] at h
      split at h
      · rename_i hs
        rw [hs] at hmove
        split at h
        · rename_i hexit
          exact hmove _ _ _ (by simp) (.exits rfl hexit) h
        · rename_i hexit
          exact hmove _ _ _ (by simp) (.waits rfl rfl (by simpa using hexit)) h
      · contradiction
  | recv order packetBatch =>
      simp only [stepReconstructor] at h
      split at h
      · rename_i hs _
        rw [hs] at hmove
        split at h
        · exact hmove _ _ _ (by simp) .wakes h
        · contradiction
      · contradiction
  | drain =>
      simp only [stepReconstructor] at h
      split at h
      · obtain rfl := Option.some.inj h
        exact ⟨Moved.of_same rfl, id, id⟩
      · contradiction
  | finish =>
      simp only [stepReconstructor] at h
      split at h
      · rename_i hs _
        rw [hs] at hmove
        exact hmove _ _ _ (by simp) (.finishes rfl) h
      · contradiction
  | timeout =>
      simp only [stepReconstructor] at h
      split at h
      · rename_i hs _
        rw [hs] at hmove
        exact hmove _ _ _ (by simp) (.ticks rfl) h
      · contradiction
  | disconnected =>
      simp only [stepReconstructor] at h
      split at h
      · rename_i hs _
        rw [hs] at hmove
        split at h
        · exact hmove _ _ _ (by simp) (.closes rfl) h
        · contradiction
      · contradiction

/-- A step of a thread that only takes part in the shutdown moves this thread. -/
theorem stepOther_moves {thread : OtherThread} {e : WorkerEvent}
    (h : p.stepOther cfg thread e = some p') : ThreadMoves cfg p p' := by
  unfold stepOther at h
  split at h
  · rename_i hspawns
    rcases Option.map_eq_some_iff.mp h with ⟨⟨exit, shutdownReceiver, stage⟩, hstep, rfl⟩
    exact ⟨Moved.of_other hspawns (.steps hstep) rfl, id, id⟩
  · contradiction

/-- The threads that the configuration does not ask for are not there. -/
def Absent (cfg : ProxyConfig) (p : Proxy) : Prop :=
  (p.refreshStage ≠ .stopped → cfg.discoveredEndpointsPort.isSome = true) ∧
    (p.reconstructor ≠ .stopped → cfg.shouldReconstructShreds = true)

/-- A step is about a signal, or it moves at most one thread. -/
theorem step_moves {e : ProxyEvent} (habsent : Absent cfg p) (h : p.step cfg e = some p') :
    (e = .signal ∧ p.notifier = 0 ∧ p' = { p with exit := true, notifier := maxShutdownMessages }) ∨
    (e = .notify ∧ ∃ n, p.notifier = n + 1 ∧ p.shutdownReceiver < maxShutdownMessages ∧
      p' = { p with notifier := n, shutdownReceiver := p.shutdownReceiver + 1 }) ∨
    (e ≠ .signal ∧ ThreadMoves cfg p p') := by
  have hsame : e ≠ .signal → ∀ service, some { p with service } = some p' →
      e ≠ .signal ∧ ThreadMoves cfg p p' := by
    rintro he service heq
    obtain rfl := Option.some.inj heq
    exact ⟨he, Moved.of_same rfl, id, id⟩
  -- a listener only changes the channel of its forwarder
  have hlistener : ∀ (i : Nat) (t t' : ForwarderThread), p.forwarders[i]? = some t →
      some (p.setForwarder i t') = some p' → t'.stage = t.stage → ThreadMoves cfg p p' := by
    rintro i t t' hi heq hstage
    obtain rfl := Option.some.inj heq
    have hold : p.control.forwarders[i]? = some t.stage.toWorker := by simp [control, hi]
    refine ⟨Moved.of_forwarder hold (.stays _) ?_, id, id⟩
    simp [control, setForwarder, List.map_set, hstage]
  cases e with
  | signal =>
      simp only [step] at h
      split at h
      · rename_i hidle
        exact Or.inl ⟨rfl, hidle, (Option.some.inj h).symm⟩
      · contradiction
  | notify =>
      simp only [step] at h
      split at h
      · contradiction
      · rename_i n hn
        split at h
        · rename_i hroom
          exact Or.inr (Or.inl ⟨rfl, n, hn, hroom, (Option.some.inj h).symm⟩)
        · contradiction
  | listen i packetBatch =>
      simp only [step] at h
      split at h
      · rename_i t hi
        split at h
        · contradiction
        · exact Or.inr (Or.inr ⟨by simp, hlistener i t _ hi h rfl⟩)
        · contradiction
      · contradiction
  | listenerExit i =>
      simp only [step] at h
      split at h
      · rename_i t hi
        split at h
        · exact Or.inr (Or.inr ⟨by simp, hlistener i t _ hi h rfl⟩)
        · exact Or.inr (Or.inr ⟨by simp, hlistener i t _ hi h rfl⟩)
        · contradiction
      · contradiction
  | forwarder i e =>
      simp only [step] at h
      split at h
      · rename_i t hi
        exact Or.inr (Or.inr ⟨by simp, stepForwarder_moves hi h⟩)
      · contradiction
  | refreshThread e =>
      exact Or.inr (Or.inr ⟨by simp, stepRefreshThread_moves habsent.1 h⟩)
  | accessory e => exact Or.inr (Or.inr ⟨by simp, stepAccessory_moves h⟩)
  | reconstructor e =>
      exact Or.inr (Or.inr ⟨by simp, stepReconstructor_moves habsent.2 h⟩)
  | other thread e => exact Or.inr (Or.inr ⟨by simp, stepOther_moves h⟩)
  | subscribeEntries => exact Or.inr (Or.inr (hsame (by simp) _ h))
  | taskRecv i => exact Or.inr (Or.inr (hsame (by simp) _ h))
  | taskSend i => exact Or.inr (Or.inr (hsame (by simp) _ h))
  | clientRead i => exact Or.inr (Or.inr (hsame (by simp) _ h))
  | clientDisconnect i => exact Or.inr (Or.inr (hsame (by simp) _ h))

/-! ## Runs of the proxy -/

/-- The same thread, at the same stage up to the reason for which it ended. -/
def SameWorker (v w : Worker) : Prop := v.thread = w.thread ∧ v.stage.Like w.stage

/-- The process is where the proxy is. -/
structure Tracks (cfg : ProxyConfig) (p : Proxy) (s : Shutdown) : Prop where
  exit : s.exit = p.exit
  shutdownReceiver : s.shutdownReceiver = p.shutdownReceiver
  notifier : s.notifier = p.notifier
  main : s.main = .joining 0
  workers : ∀ k : Nat, Option.Rel SameWorker (p.control.workers cfg)[k]? s.workers[k]?

/-- A thread of the proxy has its thread of the protocol, at the same stage. -/
theorem Tracks.exists_worker {s : Shutdown} (h : Tracks cfg p s) {k : Nat} {v : Worker}
    (hk : (p.control.workers cfg)[k]? = some v) :
    ∃ stage, s.workers[k]? = some ⟨v.thread, stage⟩ ∧ v.stage.Like stage := by
  have hrel := h.workers k
  rw [hk] at hrel
  cases hw : s.workers[k]? with
  | none =>
      rw [hw] at hrel
      exact absurd hrel (by simp)
  | some w =>
      rw [hw, Option.rel_some_some] at hrel
      refine ⟨w.stage, ?_, hrel.2⟩
      rw [hrel.1]

/-- What moves a thread of the proxy is a run of the protocol. -/
theorem Tracks.of_moves {s : Shutdown} (h : Tracks cfg p s) (hmoves : ThreadMoves cfg p p') :
    ∃ events s', EventRun.run Shutdown.step s events = some s' ∧ Shutdown.signals events = 0 ∧
      Tracks cfg p' s' := by
  rcases hmoves.moved with ⟨hnotifier, k, thread, a, b, hk, hset, hmove⟩
  rcases h.exists_worker hk with ⟨a', ha', hlike⟩
  have hmain : s.main.finished = false := by rw [h.main]; rfl
  have hmove' : thread.Move s.exit s.shutdownReceiver a b p'.exit p'.shutdownReceiver := by
    rw [h.exit, h.shutdownReceiver]
    exact hmove
  rcases Shutdown.exists_run_of_move hmain ha' hlike hmove' with ⟨events, b', hb', hsignals, hrun⟩
  refine ⟨events, _, hrun, hsignals, rfl, rfl, h.notifier.trans hnotifier.symm, h.main, ?_⟩
  intro j
  rw [hset, List.getElem?_set, List.getElem?_set]
  by_cases hj : k = j
  · subst hj
    rw [if_pos rfl, if_pos rfl, if_pos (List.getElem?_eq_some_iff.mp hk).1,
      if_pos (List.getElem?_eq_some_iff.mp ha').1]
    exact Option.Rel.some ⟨rfl, hb'⟩
  · rw [if_neg hj, if_neg hj]
    exact h.workers j

theorem tracks_initial (cfg : ProxyConfig) (port : UInt16) :
    Tracks cfg (initial cfg)
      (Shutdown.initial (cfg.threadArgs port).threadHandles (cfg.threadArgs port).detached) := by
  refine ⟨rfl, rfl, rfl, rfl, ?_⟩
  have hworkers : (initial cfg).control.workers cfg =
      (Shutdown.initial (cfg.threadArgs port).threadHandles
        (cfg.threadArgs port).detached).workers := by
    cases hport : cfg.discoveredEndpointsPort.isSome <;>
      cases hshould : cfg.shouldReconstructShreds <;>
      cases hshredstream : cfg.shredstream <;> cases hprometheus : cfg.prometheusBindAddr <;>
      simp [Shutdown.initial, workers, forwarderWorkers, otherWorker, refreshWorker,
        reconstructorWorker, control, initial, ProxyConfig.spawns, OtherThread.toThread,
        ProxyConfig.threadArgs, ThreadArgs.threadHandles, ThreadArgs.detached, hport, hshould,
        hshredstream, hprometheus, ForwarderThread.initial, ForwarderStage.toWorker,
        AccessoryStage.toWorker, RefreshStage.toWorker, ReconstructorStage.toWorker]
  intro k
  rw [hworkers]
  cases (Shutdown.initial (cfg.threadArgs port).threadHandles
      (cfg.threadArgs port).detached).workers[k]? with
  | none => exact Option.Rel.none
  | some w => exact Option.Rel.some ⟨rfl, Or.inl rfl⟩

theorem absent_initial (cfg : ProxyConfig) : Absent cfg (initial cfg) := by
  constructor
  · intro hthere
    by_contra hport
    exact hthere (by simp [initial, hport])
  · intro hthere
    by_contra hshould
    exact hthere (by simp [initial, hshould])

/-- The signals of a run of the proxy. -/
def signals (events : List ProxyEvent) : Nat :=
  events.countP fun
    | .signal => true
    | _ => false

/-- Every run of the proxy is one of the protocol. -/
theorem exists_tracks {events : List ProxyEvent} (h : run cfg events = some p) (port : UInt16) :
    ∃ protocol s,
      Shutdown.run (cfg.threadArgs port).threadHandles (cfg.threadArgs port).detached protocol =
        some s ∧
      Shutdown.signals protocol = signals events ∧ Tracks cfg p s := by
  have hboth : Absent cfg p ∧ ∃ protocol s,
      Shutdown.run (cfg.threadArgs port).threadHandles (cfg.threadArgs port).detached protocol =
        some s ∧
      Shutdown.signals protocol = signals events ∧ Tracks cfg p s := by
    refine EventRun.run_invariant (I := fun events p => Absent cfg p ∧ ∃ protocol s,
      Shutdown.run (cfg.threadArgs port).threadHandles (cfg.threadArgs port).detached protocol =
        some s ∧ Shutdown.signals protocol = signals events ∧ Tracks cfg p s)
      ⟨absent_initial cfg, [], _, rfl, rfl, tracks_initial cfg port⟩ ?_ h
    rintro past p e p' ⟨habsent, protocol, s, hrun, hsignals, htracks⟩ hstep
    have hmain : s.main.finished = false := by rw [htracks.main]; rfl
    have hconcat : ∀ e, signals (past ++ [e]) = signals past + signals [e] := by
      intro e
      rw [signals, List.countP_append]
      rfl
    rcases step_moves habsent hstep with
      ⟨rfl, hidle, rfl⟩ | ⟨rfl, n, hn, hroom, rfl⟩ | ⟨he, hmoves⟩
    · have hsignal : s.step .signal =
          some { s with exit := true, notifier := maxShutdownMessages } := by
        have hnotifier := htracks.notifier.trans hidle
        simp [Shutdown.step, hmain, hnotifier]
      refine ⟨habsent, protocol ++ [.signal],
        { s with exit := true, notifier := maxShutdownMessages },
        EventRun.run_concat_eq_some_iff.mpr ⟨s, hrun, hsignal⟩, ?_,
        rfl, htracks.shutdownReceiver, rfl, htracks.main, htracks.workers⟩
      rw [Shutdown.signals_concat, hsignals, hconcat]
      rfl
    · have hnotify : s.step .notify =
          some { s with notifier := n, shutdownReceiver := s.shutdownReceiver + 1 } := by
        have hnotifier := htracks.notifier.trans hn
        have hfree : s.shutdownReceiver < maxShutdownMessages := by
          rw [htracks.shutdownReceiver]
          exact hroom
        simp [Shutdown.step, hmain, hnotifier, hfree]
      refine ⟨habsent, protocol ++ [.notify],
        { s with notifier := n, shutdownReceiver := s.shutdownReceiver + 1 },
        EventRun.run_concat_eq_some_iff.mpr ⟨s, hrun, hnotify⟩, ?_,
        htracks.exit, congrArg Nat.succ htracks.shutdownReceiver, rfl, htracks.main,
        htracks.workers⟩
      rw [Shutdown.signals_concat, hsignals, hconcat]
      rfl
    · rcases htracks.of_moves hmoves with ⟨more, s', hmore, hnone, htracks'⟩
      refine ⟨⟨?_, ?_⟩, protocol ++ more, s', ?_, ?_, htracks'⟩
      · exact fun hthere => habsent.1 fun hs => hthere (hmoves.refresh hs)
      · exact fun hthere => habsent.2 fun hs => hthere (hmoves.reconstructor hs)
      · rw [Shutdown.run, EventRun.run_append, ← Shutdown.run, hrun]
        exact hmore
      · have hother : signals [e] = 0 := by
          cases e with
          | signal => exact absurd rfl he
          | _ => rfl
        rw [hconcat, hother, Shutdown.signals, List.countP_append, ← Shutdown.signals, hsignals]
        exact congrArg _ hnone
  exact hboth.2

/-- Every thread of the proxy is one of the protocol. -/
theorem Tracks.exists_of_mem {s : Shutdown} (h : Tracks cfg p s) {v : Worker}
    (hv : v ∈ p.control.workers cfg) :
    ∃ (k : Nat) (stage : WorkerStage), s.workers[k]? = some ⟨v.thread, stage⟩ ∧
      v.stage.Like stage := by
  rcases List.mem_iff_getElem?.mp hv with ⟨k, hk⟩
  rcases h.exists_worker hk with ⟨stage, hw, hlike⟩
  exact ⟨k, stage, hw, hlike⟩

/-- A forwarder is a thread of the proxy. -/
theorem mem_workers_of_forwarder {t : ForwarderThread} (ht : t ∈ p.forwarders) :
    (⟨.forwarder cfg.discoveredEndpointsPort.isSome, t.stage.toWorker⟩ : Worker) ∈
      p.control.workers cfg := by
  have hmem : (⟨.forwarder cfg.discoveredEndpointsPort.isSome, t.stage.toWorker⟩ : Worker) ∈
      p.control.forwarderWorkers cfg :=
    List.mem_map_of_mem (List.mem_map_of_mem ht)
  simp only [workers, List.mem_append, hmem, true_or, or_true]

/-- So is every other thread that is started. -/
theorem mem_workers_of_other {thread : OtherThread} (hspawns : cfg.spawns thread = true) :
    (⟨thread.toThread, p.others thread⟩ : Worker) ∈ p.control.workers cfg := by
  have hmem : (⟨thread.toThread, p.others thread⟩ : Worker) ∈
      p.control.otherWorker cfg thread := by
    simp [otherWorker, hspawns, control]
  cases thread <;> simp only [workers, List.mem_append, hmem, true_or, or_true]

end Proxy

open Proxy

/-- In every interleaving of the proxy, nobody has sent a shutdown message or has panicked before
the exit flag is set. Once the messages of a signal are sent, and if there are no more than 251
forwarders, no forwarder can wait in vain: as long as one waits there is a message. -/
theorem proxy_follows_protocol (cfg : ProxyConfig) (events : List ProxyEvent) (p : Proxy)
    (h : Proxy.run cfg events = some p) :
    (p.exit = false → p.shutdownReceiver = 0 ∧ p.notifier = 0 ∧
      (∀ t ∈ p.forwarders, t.stage ≠ .panicking) ∧
      ∀ thread, cfg.spawns thread = true → p.others thread ≠ .panicking) ∧
    (cfg.numThreads ≤ 251 → .signal ∈ events → p.notifier = 0 → p.exit = true ∧
      ∀ t ∈ p.forwarders, t.stage = .selecting → 0 < p.shutdownReceiver) := by
  rcases exists_tracks h 0 with ⟨protocol, s, hrun, hsignals, htracks⟩
  constructor
  · intro hexit
    have hquiet := (Shutdown.Accounts.of_run hrun).quiet (htracks.exit.trans hexit)
    have hnone : ∀ {v : Worker}, v ∈ p.control.workers cfg → v.stage ≠ .panicking := by
      intro v hv hpanicking
      rcases htracks.exists_of_mem hv with ⟨k, stage, hw, hlike⟩
      have hundisturbed := hquiet.2.2.2 _ (List.mem_of_getElem? hw)
      rw [hpanicking] at hlike
      rcases hlike with rfl | ⟨hstopped, _⟩
      · contradiction
      · contradiction
    refine ⟨htracks.shutdownReceiver ▸ hquiet.1, htracks.notifier ▸ hquiet.2.1, ?_, ?_⟩
    · intro t ht hpanicking
      exact hnone (mem_workers_of_forwarder ht) (by rw [hpanicking]; rfl)
    · intro thread hspawns hpanicking
      exact hnone (mem_workers_of_other hspawns) hpanicking
  · intro hthreads hsignal hsent
    have hpos : 0 < Shutdown.signals protocol := by
      rw [hsignals]
      exact List.countP_pos_iff.mpr ⟨_, hsignal, rfl⟩
    have htakers : ((cfg.threadArgs 0).threadHandles ++ (cfg.threadArgs 0).detached).countP
        Thread.takesMessages ≤ maxShutdownMessages := by
      have hle := (cfg.threadArgs 0).takers_le
      simp only [ProxyConfig.threadArgs, maxShutdownMessages] at hle ⊢
      omega
    have hsupplied := Shutdown.supplied_of_run hrun htakers hpos (htracks.notifier.trans hsent)
    refine ⟨htracks.exit ▸ hsupplied.1, ?_⟩
    intro t ht hselecting
    rcases htracks.exists_of_mem (mem_workers_of_forwarder ht) with ⟨k, stage, hw, hlike⟩
    simp only [hselecting] at hw hlike
    rcases hlike with rfl | ⟨hstopped, _⟩
    · have hclaims := hsupplied.claims_le hw
      rw [htracks.shutdownReceiver] at hclaims
      exact hclaims
    · contradiction

/-- The signal handler sends its messages. -/
theorem Proxy.run_notify (cfg : ProxyConfig) {n : Nat} {p : Proxy} (hn : p.notifier = n)
    (hroom : p.shutdownReceiver + n ≤ maxShutdownMessages) :
    EventRun.run (Proxy.step cfg) p (List.replicate n .notify) =
      some { p with notifier := 0, shutdownReceiver := p.shutdownReceiver + n } := by
  induction n generalizing p with
  | zero =>
      have hsame : { p with notifier := 0, shutdownReceiver := p.shutdownReceiver + 0 } = p := by
        rw [Nat.add_zero, ← hn]
      rw [hsame]
      rfl
  | succ n ih =>
      have hstep : p.step cfg .notify =
          some { p with notifier := n, shutdownReceiver := p.shutdownReceiver + 1 } := by
        have hfree : p.shutdownReceiver < maxShutdownMessages := by omega
        simp [step, hn, hfree]
      rw [List.replicate_succ, EventRun.run, List.foldlM_cons, hstep]
      change EventRun.run (Proxy.step cfg) _ (List.replicate n .notify) = _
      rw [ih rfl (by simp only; omega)]
      simp [Nat.add_assoc, Nat.add_comm 1 n]

/-- The proxy also requests shreds, and there are clients that scrape its metrics. -/
def Sample.requestingConfig : ProxyConfig :=
  { proxyConfig with shredstream := true, prometheusBindAddr := true }

/-- The forwarder waits and a heartbeat is on its way. -/
def Sample.waitingEvents : List ProxyEvent :=
  [.forwarder 0 .load, .forwarder 0 .check, .other .heartbeat .check, .other .heartbeat .answer,
    .other .heartbeat .check, .other .heartbeat .ask]

/-- A signal arrives then, and the handler sends its messages. -/
def Sample.interruptEvents : List ProxyEvent :=
  waitingEvents ++ .signal :: List.replicate 256 .notify

/-- Before a signal that comes while the heartbeat thread waits for an answer, and after it. -/
theorem proxy_follows_protocol_sample :
    ∃ q p t, Proxy.run Sample.requestingConfig Sample.waitingEvents = some q ∧ q.exit = false ∧
      q.shutdownReceiver = 0 ∧ q.notifier = 0 ∧ q.others .heartbeat ≠ .panicking ∧
      Proxy.run Sample.requestingConfig Sample.interruptEvents = some p ∧ p.notifier = 0 ∧
      p.exit = true ∧ p.others .heartbeat = .asking ∧
      t ∈ p.forwarders ∧ t.stage = .selecting ∧ 0 < p.shutdownReceiver := by
  have hwaiting : ∃ q, Proxy.run Sample.requestingConfig Sample.waitingEvents = some q ∧
      q.exit = false ∧
      ∃ q', Proxy.step Sample.requestingConfig q .signal = some q' ∧ q'.notifier = 256 ∧
        q'.shutdownReceiver = 0 ∧ q'.others .heartbeat = .asking ∧
        ∃ t ∈ q'.forwarders, t.stage = .selecting :=
    ⟨_, rfl, rfl, _, rfl, rfl, rfl, rfl, _, List.mem_singleton.mpr rfl, rfl⟩
  rcases hwaiting with
    ⟨q, hq, hexit, q', hsignal, hnotifier, hempty, hasking, t, ht, hselecting⟩
  have hrun : Proxy.run Sample.requestingConfig Sample.interruptEvents =
      some { q' with notifier := 0, shutdownReceiver := q'.shutdownReceiver + 256 } := by
    rw [Sample.interruptEvents, Proxy.run, EventRun.run_append, ← Proxy.run, hq, Option.bind_some,
      EventRun.run, List.foldlM_cons, hsignal]
    exact Proxy.run_notify Sample.requestingConfig hnotifier (by rw [hempty]; decide)
  rcases (proxy_follows_protocol Sample.requestingConfig Sample.waitingEvents q hq).1 hexit with
    ⟨hnone, hidle, _, hothers⟩
  rcases (proxy_follows_protocol Sample.requestingConfig Sample.interruptEvents _ hrun).2
    (by decide) (List.mem_append_right _ List.mem_cons_self) rfl with ⟨hset, hmessage⟩
  exact ⟨q, _, t, hq, hexit, hnone, hidle, hothers .heartbeat rfl, hrun, rfl, hset, hasking, ht,
    hselecting, hmessage t ht hselecting⟩

end ShredstreamProxy
