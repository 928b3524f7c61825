import ShredstreamProxy.Proxy.Threads

/-!
# What a step of the proxy can do

The machine has many events and few kinds of effects.  This module says once what a step can do to
the shared objects, so that invariants are proved by cases over the effects and not over the events.
What the events of a run say by themselves (the batches that arrived, the calls that were made) is
read off the list of events.

Main results:

- Theorem {lit}`Proxy.step_cases`: the effects of a step.
- Theorem {lit}`Proxy.run_induction`: an invariant of the events so far and the state, by cases over
  the effects.
-/

namespace ShredstreamProxy

open Channel

/-! ## What an event says -/

/-- The step is one of a client or of the task that serves it. -/
def EntryAction.isClient : EntryAction → Bool
  | .subscribeEntries | .recv _ | .send _ | .read _ | .disconnect _ => true
  | _ => false

namespace ProxyEvent

/-- The batch that the listener of forwarder `i` hands over. -/
def arrival (i : Nat) : ProxyEvent → Option PacketBatch
  | .listen j packetBatch => if j = i then some packetBatch else none
  | _ => none

/-- The call that forwarder `i` starts. -/
def call (i : Nat) : ProxyEvent → Option Forwarding
  | .forwarder j (.recv f) => if j = i then some f else none
  | _ => none

/-- Forwarder `i` loads the published list of destinations. -/
def loads (i : Nat) : ProxyEvent → Bool
  | .forwarder j .load => j = i
  | .forwarder j .refreshTick => j = i
  | _ => false

/-- The forwarder that a step of a forwarder or its listener is about. -/
def about : ProxyEvent → Option Nat
  | .listen i _ => some i
  | .listenerExit i => some i
  | .forwarder i _ => some i
  | _ => none

/-- The batch that the reconstructor takes. -/
def taken : ProxyEvent → Option (IterOrder × PacketBatch)
  | .reconstructor (.recv order packetBatch) => some (order, packetBatch)
  | _ => none

/-- The step of the entries service. -/
def action : ProxyEvent → Option EntryAction
  | .reconstructor (.recv order packetBatch) =>
      some (.reconstruct ⟨order, packetBatch.map SourcedPacket.toPacket⟩)
  | .reconstructor .drain => some .drain
  | .subscribeEntries => some .subscribeEntries
  | .taskRecv i => some (.recv i)
  | .taskSend i => some (.send i)
  | .clientRead i => some (.read i)
  | .clientDisconnect i => some (.disconnect i)
  | _ => none

/-- The event only moves a thread from one stage to the next, or is about signals. -/
def isControl : ProxyEvent → Bool
  | .signal | .notify => true
  | .refreshThread (.fetchSocketTick _ _) => false
  | .refreshThread _ => true
  | .accessory .check | .accessory .finish | .accessory .deduperResetTick
  | .accessory .shutdown => true
  | .reconstructor .check | .reconstructor .finish | .reconstructor .timeout => true
  | .other _ _ => true
  | _ => false

variable {e : ProxyEvent} {i : Nat}

/-- No batch arrives by a step that is not about the forwarder. -/
theorem arrival_of_about (h : e.about ≠ some i) : e.arrival i = none := by
  cases e with
  | listen j packetBatch => exact if_neg fun hij => h (congrArg some hij)
  | _ => rfl

/-- A step that is not about the forwarder starts no call of it. -/
theorem call_of_about (h : e.about ≠ some i) : e.call i = none := by
  cases e with
  | forwarder j e =>
      cases e with
      | recv f => exact if_neg fun hij => h (congrArg some hij)
      | _ => rfl
  | _ => rfl

/-- A step that is not about the forwarder loads nothing for it. -/
theorem loads_of_about (h : e.about ≠ some i) : e.loads i = false := by
  cases e with
  | forwarder j e =>
      cases e with
      | load => exact decide_eq_false fun hij => h (congrArg some hij)
      | refreshTick => exact decide_eq_false fun hij => h (congrArg some hij)
      | _ => rfl
  | _ => rfl

/-- The steps that move other threads are about no forwarder. -/
theorem about_of_isControl (h : e.isControl = true) : e.about = none := by
  cases e with
  | listen | listenerExit | forwarder => exact absurd h Bool.false_ne_true
  | _ => rfl

/-- The steps of the entries service are about no forwarder. -/
theorem about_of_action (h : e.action.isSome) : e.about = none := by
  cases e with
  | listen | listenerExit | forwarder => exact absurd h Bool.false_ne_true
  | _ => rfl

/-- Moving a thread takes no batch. -/
theorem taken_of_isControl (h : e.isControl = true) : e.taken = none := by
  unfold isControl at h
  split at h <;> first | rfl | contradiction

/-- Moving a thread is no step of the entries service. -/
theorem action_of_isControl (h : e.isControl = true) : e.action = none := by
  unfold isControl at h
  split at h <;> first | rfl | contradiction

end ProxyEvent

/-! ## Effects -/

/-- The operations that are left of the call a forwarder is in. -/
def ForwarderThread.pending (t : ForwarderThread) : List ForwardOp :=
  match t.stage with
  | .forwarding _ ops => ops
  | _ => []

/-- What a step can do to a forwarder and its channel, apart from an operation of a call. -/
inductive ForwarderThread.Step (cfg : ProxyConfig) (published : List SocketAddr) (i : Nat)
    (t : ForwarderThread) : ProxyEvent → ForwarderThread → Prop
  | listen (packetBatch : PacketBatch) (hstage : t.stage ≠ .stopped) :
      Step cfg published i t (.listen i packetBatch)
        { t with packetReceiver := t.packetReceiver ++ [packetBatch] }
  | listenerExit : Step cfg published i t (.listenerExit i) { t with listening := false }
  | load (hstage : t.stage = .starting) :
      Step cfg published i t (.forwarder i .load)
        { t with localDestSockets := published, stage := .checking }
  | check (hstage : t.stage = .checking) :
      Step cfg published i t (.forwarder i .check) { t with stage := .selecting }
  | recv (f : Forwarding) (rest : List PacketBatch) (hstage : t.stage = .selecting)
      (hnext : t.packetReceiver = f.packetBatch :: rest)
      (hcalls : Proxy.Calls cfg t f.packetBatch f) :
      Step cfg published i t (.forwarder i (.recv f))
        { t with packetReceiver := rest, stage := .forwarding f f.ops }
  | refreshTick (hstage : t.stage = .selecting) (hport : cfg.discoveredEndpointsPort.isSome) :
      Step cfg published i t (.forwarder i .refreshTick)
        { t with localDestSockets := published, stage := .checking }
  | finish (f : Forwarding) (hstage : t.stage = .forwarding f []) :
      Step cfg published i t (.forwarder i .finish) { t with stage := .checking }
  | panic (f : Forwarding) (hstage : t.stage = .forwarding f []) :
      Step cfg published i t (.forwarder i .finish) { t with stage := .panicking }
  | stop (e : ForwarderEvent) (hcall : ∀ f, e ≠ .recv f)
      (hloads : (ProxyEvent.forwarder i e).loads i = false) (hstage : t.stage ≠ .starting)
      (hpending : t.pending = []) : Step cfg published i t (.forwarder i e) t.stop

/-- What a step can do to the shared objects. -/
inductive Proxy.Step (cfg : ProxyConfig) (p : Proxy) : ProxyEvent → Proxy → Prop
  | control {e : ProxyEvent} (he : e.isControl = true) (exit : Bool)
      (shutdownReceiver notifier : Nat) (refreshStage : RefreshStage)
      (accessoryStage : AccessoryStage) (reconstructor : ReconstructorStage)
      (others : OtherThread → WorkerStage)
      (hdrained : p.reconstructor = .draining →
        reconstructor = .draining ∨ p.service.deshreddedEntries = [])
      (hreported : p.accessoryStage = .reporting →
        accessoryStage = .reporting ∨ p.accessory.program = []) :
      Step cfg p e
        { p with
          exit, shutdownReceiver, notifier, refreshStage, accessoryStage, reconstructor, others }
  | thread {e : ProxyEvent} {i : Nat} {t t' : ForwarderThread} (hi : p.forwarders[i]? = some t)
      (hstep : t.Step cfg p.refresh.unionedDestSockets i e t') (exit : Bool)
      (shutdownReceiver : Nat) :
      Step cfg p e { p with exit, shutdownReceiver, forwarders := p.forwarders.set i t' }
  | op {i : Nat} {t : ForwarderThread} {f : Forwarding} {op : ForwardOp} {ops : List ForwardOp}
      (hi : p.forwarders[i]? = some t) (hstage : t.stage = .forwarding f (op :: ops)) :
      Step cfg p (.forwarder i .op)
        ((p.exec i op).setForwarder i { t with stage := .forwarding f ops })
  | publish {port : UInt16} {fetch : Fetch} {lookup : Lookup}
      (hport : cfg.discoveredEndpointsPort = some port) (refreshStage : RefreshStage) :
      Step cfg p (.refreshThread (.fetchSocketTick fetch lookup))
        { p with
          refreshStage
          refresh :=
            RefreshThread.step port cfg.destIpPorts p.refresh (.fetchSocketTick fetch lookup) }
  | accessory {e : AccessoryEvent} {accessoryStage : AccessoryStage}
      (he : e = .metricsTick ∨ e = .op) (hstage : accessoryStage = .reporting) :
      Step cfg p (.accessory e)
        { p with
          accessoryStage
          accessory := (p.accessory.step p.metrics).1
          metrics := (p.accessory.step p.metrics).2 }
  | retain {addr : IpAddr} {counts : UInt64 × UInt64} (h : p.packetsReceived addr = some counts) :
      Step cfg p (.accessory (.retain addr))
        { p with
          packetsReceived := Function.update p.packetsReceived addr none
          receiverStats := p.receiverStats ++ [⟨addr, counts.1, counts.2⟩] }
  | recv {order : IterOrder} {packetBatch : PacketBatch} {items : List PacketBatch}
      (hstage : p.reconstructor = .receiving) (h : p.reconstructRx.items = packetBatch :: items) :
      Step cfg p (.reconstructor (.recv order packetBatch))
        { p with
          reconstructor := .draining
          reconstructRx := { p.reconstructRx with items }
          service :=
            p.service.step cfg.ledger
              (.reconstruct ⟨order, packetBatch.map SourcedPacket.toPacket⟩) }
  | stopReconstructor {e : ReconstructorEvent} (he : e = .check ∨ e = .disconnected)
      (hstage : p.reconstructor ≠ .draining) :
      Step cfg p (.reconstructor e)
        { p with reconstructor := .stopped, reconstructRx := p.reconstructRx.disconnect }
  | drain (hstage : p.reconstructor = .draining) :
      Step cfg p (.reconstructor .drain) { p with service := p.service.step cfg.ledger .drain }
  | client {e : ProxyEvent} {a : EntryAction} (he : e.action = some a) (htaken : e.taken = none)
      (ha : a.isClient = true) :
      Step cfg p e { p with service := p.service.step cfg.ledger a }

namespace Proxy

variable {cfg : ProxyConfig} {p p' : Proxy}

/-- The shared objects that an operation of a forwarder can change. -/
theorem exec_eq (p : Proxy) (i : Nat) (op : ForwardOp) :
    p.exec i op =
      { p with
        metrics := (p.effect i op).metrics
        packetsReceived := (p.effect i op).packetsReceived
        reconstructRx := (p.effect i op).reconstructRx
        offers := (p.effect i op).offers
        executed := p.executed ++ [(i, op)] } := by
  cases op with
  | trySend packetBatch =>
      simp only [exec, effect, trySend]
      cases p.reconstructRx.send packetBatch <;> rfl
  | fetchAdd c n => rfl
  | storeStats packet => rfl
  | batchSend destination packetsWithDest => rfl

/-- The effects of a step of a forwarder. -/
theorem stepForwarder_cases {i : Nat} {t : ForwarderThread} {e : ForwarderEvent}
    (hi : p.forwarders[i]? = some t) (h : p.stepForwarder cfg i t e = some p') :
    Step cfg p (.forwarder i e) p' := by
  have hstop : ∀ exit shutdownReceiver, (∀ f, e ≠ .recv f) →
      (ProxyEvent.forwarder i e).loads i = false → t.stage ≠ .starting ∧ t.pending = [] →
      some { p with exit, shutdownReceiver, forwarders := p.forwarders.set i t.stop } = some p' →
      Step cfg p (.forwarder i e) p' := by
    intro exit shutdownReceiver hcall hloads hstage heq
    exact Option.some.inj heq ▸
      Step.thread hi (.stop e hcall hloads hstage.1 hstage.2) exit shutdownReceiver
  cases e with
  | load =>
      simp only [stepForwarder] at h
      split at h
      · rename_i hstage
        exact Option.some.inj h ▸ Step.thread hi (.load hstage) p.exit p.shutdownReceiver
      · contradiction
  | check =>
      simp only [stepForwarder] at h
      split at h
      · rename_i hstage
        split at h
        · exact hstop p.exit p.shutdownReceiver (by simp) rfl
            (by simp [ForwarderThread.pending, hstage]) h
        · exact Option.some.inj h ▸ Step.thread hi (.check hstage) p.exit p.shutdownReceiver
      · contradiction
  | recv f =>
      simp only [stepForwarder] at h
      split at h
      · rename_i packetBatch rest hstage hnext
        split at h
        · rename_i hcalls
          obtain rfl : f.packetBatch = packetBatch := hcalls.1
          exact Option.some.inj h ▸
            Step.thread hi (.recv f rest hstage hnext hcalls) p.exit p.shutdownReceiver
        · contradiction
      · contradiction
  | recvError =>
      simp only [stepForwarder] at h
      split at h
      · rename_i hstage _ _
        exact hstop p.exit p.shutdownReceiver (by simp) rfl
          (by simp [ForwarderThread.pending, hstage]) h
      · contradiction
  | refreshTick =>
      simp only [stepForwarder] at h
      split at h
      · rename_i hstage hport
        exact Option.some.inj h ▸
          Step.thread hi (.refreshTick hstage (by simp [hport])) p.exit p.shutdownReceiver
      · contradiction
  | shutdown =>
      simp only [stepForwarder] at h
      split at h
      · rename_i n hstage _
        exact hstop p.exit n (by simp) rfl (by simp [ForwarderThread.pending, hstage]) h
      · contradiction
  | op =>
      simp only [stepForwarder] at h
      split at h
      · rename_i hstage
        exact Option.some.inj h ▸ Step.op hi hstage
      · contradiction
  | finish =>
      simp only [stepForwarder] at h
      split at h
      · rename_i f hstage
        split at h
        · exact Option.some.inj h ▸ Step.thread hi (.finish f hstage) p.exit p.shutdownReceiver
        · exact hstop p.exit p.shutdownReceiver (by simp) rfl
            (by simp [ForwarderThread.pending, hstage]) h
        · exact Option.some.inj h ▸ Step.thread hi (.panic f hstage) true p.shutdownReceiver
      · contradiction
  | hookSend =>
      simp only [stepForwarder] at h
      split at h
      · rename_i hstage
        split at h
        · exact hstop p.exit (p.shutdownReceiver + 1) (by simp) rfl
            (by simp [ForwarderThread.pending, hstage]) h
        · contradiction
      · contradiction

/-- The effects of a step of the refresh thread. -/
theorem stepRefreshThread_cases {e : RefreshThreadEvent} (h : p.stepRefreshThread cfg e = some p') :
    Step cfg p (.refreshThread e) p' := by
  cases e with
  | check =>
      simp only [stepRefreshThread] at h
      split at h
      · exact Option.some.inj h ▸ Step.control rfl _ _ _ _ _ _ _ Or.inl Or.inl
      · contradiction
  | fetchSocketTick fetch lookup =>
      simp only [stepRefreshThread] at h
      split at h
      · rename_i hport
        exact Option.some.inj h ▸ Step.publish hport _
      · contradiction
  | metricsTick =>
      simp only [stepRefreshThread] at h
      split at h
      · exact Option.some.inj h ▸ Step.control rfl _ _ _ _ _ _ _ Or.inl Or.inl
      · contradiction
  | shutdown =>
      simp only [stepRefreshThread] at h
      split at h
      · exact Option.some.inj h ▸ Step.control rfl _ _ _ _ _ _ _ Or.inl Or.inl
      · contradiction

/-- The effects of a step of the accessory thread. -/
theorem stepAccessory_cases {e : AccessoryEvent} (h : p.stepAccessory e = some p') :
    Step cfg p (.accessory e) p' := by
  cases e with
  | check =>
      simp only [stepAccessory] at h
      split at h
      · rename_i hstage
        exact Option.some.inj h ▸ Step.control rfl _ _ _ _ _ _ _ Or.inl (by simp [hstage])
      · contradiction
  | metricsTick =>
      simp only [stepAccessory] at h
      split at h
      · exact Option.some.inj h ▸ Step.accessory (Or.inl rfl) rfl
      · contradiction
  | op =>
      simp only [stepAccessory] at h
      split at h
      · rename_i hstage _
        exact Option.some.inj h ▸ Step.accessory (Or.inr rfl) hstage
      · contradiction
  | retain addr =>
      simp only [stepAccessory] at h
      split at h
      · rename_i hcounts
        split at h
        · exact Option.some.inj h ▸ Step.retain hcounts
        · contradiction
      · contradiction
  | finish =>
      simp only [stepAccessory] at h
      split at h
      · rename_i hprogram
        exact Option.some.inj h ▸ Step.control rfl _ _ _ _ _ _ _ Or.inl fun _ => Or.inr hprogram
      · contradiction
  | deduperResetTick =>
      simp only [stepAccessory] at h
      split at h
      · rename_i hstage
        exact Option.some.inj h ▸ Step.control rfl _ _ _ _ _ _ _ Or.inl (by simp [hstage])
      · contradiction
  | shutdown =>
      simp only [stepAccessory] at h
      split at h
      · rename_i hstage _
        exact Option.some.inj h ▸ Step.control rfl _ _ _ _ _ _ _ Or.inl (by simp [hstage])
      · contradiction

/-- The effects of a step of the reconstructor. -/
theorem stepReconstructor_cases {e : ReconstructorEvent} (h : p.stepReconstructor cfg e = some p') :
    Step cfg p (.reconstructor e) p' := by
  cases e with
  | check =>
      simp only [stepReconstructor] at h
      split at h
      · rename_i hstage
        split at h
        · exact Option.some.inj h ▸ Step.stopReconstructor (Or.inl rfl) (by simp [hstage])
        · exact Option.some.inj h ▸ Step.control rfl _ _ _ _ _ _ _ (by simp [hstage]) Or.inl
      · contradiction
  | recv order packetBatch =>
      simp only [stepReconstructor] at h
      split at h
      · rename_i next items hstage hitems
        split at h
        · rename_i heq
          subst heq
          exact Option.some.inj h ▸ Step.recv hstage hitems
        · contradiction
      · contradiction
  | drain =>
      simp only [stepReconstructor] at h
      split at h
      · rename_i hstage _
        exact Option.some.inj h ▸ Step.drain hstage
      · contradiction
  | finish =>
      simp only [stepReconstructor] at h
      split at h
      · rename_i hentries
        exact Option.some.inj h ▸ Step.control rfl _ _ _ _ _ _ _ (fun _ => Or.inr hentries) Or.inl
      · contradiction
  | timeout =>
      simp only [stepReconstructor] at h
      split at h
      · rename_i hstage _
        exact Option.some.inj h ▸ Step.control rfl _ _ _ _ _ _ _ (by simp [hstage]) Or.inl
      · contradiction
  | disconnected =>
      simp only [stepReconstructor] at h
      split at h
      · rename_i hstage _
        split at h
        · exact Option.some.inj h ▸ Step.stopReconstructor (Or.inr rfl) (by simp [hstage])
        · contradiction
      · contradiction

/-- A thread that only takes part in the shutdown changes nothing that the others share. -/
theorem stepOther_cases {thread : OtherThread} {e : WorkerEvent}
    (h : p.stepOther cfg thread e = some p') : Step cfg p (.other thread e) p' := by
  unfold stepOther at h
  split at h
  · rcases Option.map_eq_some_iff.mp h with ⟨⟨exit, shutdownReceiver, stage⟩, _, rfl⟩
    exact Step.control rfl _ _ _ _ _ _ _ Or.inl Or.inl
  · contradiction

/-- The effects of a step. -/
theorem step_cases {e : ProxyEvent} (h : p.step cfg e = some p') : Step cfg p e p' := by
  cases e with
  | signal =>
      simp only [step] at h
      split at h
      · exact Option.some.inj h ▸ Step.control rfl _ _ _ _ _ _ _ Or.inl Or.inl
      · contradiction
  | notify =>
      simp only [step] at h
      split at h
      · contradiction
      · split at h
        · exact Option.some.inj h ▸ Step.control rfl _ _ _ _ _ _ _ Or.inl Or.inl
        · contradiction
  | listen i packetBatch =>
      simp only [step] at h
      split at h
      · rename_i t hi
        split at h
        · contradiction
        · rename_i hstage
          exact Option.some.inj h ▸
            Step.thread hi (.listen packetBatch hstage) p.exit p.shutdownReceiver
        · contradiction
      · contradiction
  | listenerExit i =>
      simp only [step] at h
      split at h
      · rename_i t hi
        split at h
        · exact Option.some.inj h ▸ Step.thread hi .listenerExit p.exit p.shutdownReceiver
        · exact Option.some.inj h ▸ Step.thread hi .listenerExit p.exit p.shutdownReceiver
        · contradiction
      · contradiction
  | forwarder i e =>
      simp only [step] at h
      split at h
      · rename_i t hi
        exact stepForwarder_cases hi h
      · contradiction
  | refreshThread e => exact stepRefreshThread_cases h
  | accessory e => exact stepAccessory_cases h
  | reconstructor e => exact stepReconstructor_cases h
  | other thread e => exact stepOther_cases h
  | subscribeEntries =>
      exact Option.some.inj h ▸ Step.client rfl rfl rfl
  | taskRecv i => exact Option.some.inj h ▸ Step.client rfl rfl rfl
  | taskSend i => exact Option.some.inj h ▸ Step.client rfl rfl rfl
  | clientRead i => exact Option.some.inj h ▸ Step.client rfl rfl rfl
  | clientDisconnect i =>
      exact Option.some.inj h ▸ Step.client rfl rfl rfl

/-- An invariant of the events so far and the state reached, kept by every effect. -/
theorem run_induction {I : List ProxyEvent → Proxy → Prop} (hinit : I [] (initial cfg))
    (hstep : ∀ past p e p', run cfg past = some p → I past p → Step cfg p e p' → I (past ++ [e]) p')
    {events : List ProxyEvent} (h : run cfg events = some p) : I events p := by
  have hboth : run cfg events = some p ∧ I events p := by
    refine EventRun.run_invariant (I := fun past q => run cfg past = some q ∧ I past q)
      ⟨rfl, hinit⟩ ?_ h
    rintro past q e q' ⟨hrun, hI⟩ hlast
    exact ⟨EventRun.run_concat_eq_some_iff.mpr ⟨q, hrun, hlast⟩,
      hstep past q e q' hrun hI (step_cases hlast)⟩
  exact hboth.2

end Proxy

end ShredstreamProxy
