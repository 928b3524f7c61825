import ShredstreamProxy.Forwarder.Destinations
import ShredstreamProxy.Forwarder.Forward
import ShredstreamProxy.Lib.EventRun
import ShredstreamProxy.Service.Entries
import ShredstreamProxy.Shutdown.Protocol

/-!
# The threads of the proxy

The proxy is a set of threads around a few shared objects: listeners put batches of packets into the
channels of the forwarders, forwarders offer them to the reconstructor and send them to the
destinations, the reconstructor feeds the entries service, the refresh thread publishes the
destinations, and the accessory thread clears the counters. Signals and panics stop them all. The
other threads (the heartbeats, the servers and the reports of the listeners) share nothing else with
these but the exit flag and the shutdown messages, and take the steps of the shutdown protocol. This
module embeds all of this as one machine. A call of a forwarder is a list of operations on shared
objects, and every operation is a step of its own, so that a run is any interleaving of the threads.

Main definitions:

- {lit}`Forwarding.ops`: the operations of one call of a forwarder.
- {lit}`ForwarderThread` and {lit}`Proxy`: one forwarder with its channel, and all threads.
- {lit}`OtherThread`: the threads that only take part in the shutdown.
- {lit}`Proxy.step`: one step of any thread; {lean}`none` if the thread is not there to take it.
- {lit}`Proxy.run`: the state after some steps.
-/

namespace ShredstreamProxy

open Channel

/-- What a listener hands to its forwarder. -/
abbrev PacketBatch := List SourcedPacket

/-! ## One call of a forwarder -/

/-- An operation of a forwarder on what it shares with others. -/
inductive ForwardOp where
  | fetchAdd (c : Counter) (n : UInt64)
  /-- Offer a batch to the reconstructor. -/
  | trySend (packetBatch : PacketBatch)
  /-- Count a packet for its source. -/
  | storeStats (packet : SourcedPacket)
  /-- Send packets to a destination. -/
  | batchSend (destination : SocketAddr) (packetsWithDest : List Bytes)

/-- The operations for one destination. -/
def Send.ops (packetsWithDest : List Bytes) (numDeduped : UInt64) (send : Send) : List ForwardOp :=
  let len := packetsWithDest.length
  [.fetchAdd .sendBatchSizeSum (UInt64.ofNat len), .fetchAdd .sendBatchCount 1,
    .fetchAdd .saturatedIovCount (UInt64.ofNat (len / maxIov)),
    .fetchAdd .unsaturatedIovCount (UInt64.ofNat (len % maxIov)),
    .batchSend send.destination packetsWithDest] ++
  (match send.result with
    | .ok => [.fetchAdd .successForward (UInt64.ofNat len), .fetchAdd .duplicate numDeduped]
    | .ioError numFailed =>
        [.fetchAdd .failForward (UInt64.ofNat len),
          .fetchAdd .duplicate (UInt64.ofNat numFailed)]) ++
  [.fetchAdd .batchSendTimeSpent send.usecs]

/-- The operations of a call, in their order.  The batch is offered before it is deduplicated. -/
def Forwarding.ops (f : Forwarding) : List ForwardOp :=
  [.fetchAdd .received (UInt64.ofNat f.packetBatch.length)] ++
  (if f.shouldReconstructShreds then [.trySend f.packetBatch] else []) ++
  [.fetchAdd .dedupTimeSpent f.dedupUsecs] ++
  f.deduped.map .storeStats ++
  f.localDestSockets.flatMap (Send.ops f.packetsWithDest f.numDeduped)

/-! ## The state -/

/-- What is given to the proxy when it starts. -/
structure ProxyConfig where
  ledger : Ledger
  decode : Bytes → Option TraceShred
  toSystemTime : Timestamp → Option SystemTime
  /-- One forwarder for each socket. -/
  numThreads : Nat
  destIpPorts : List StaticDest
  /-- The port for discovered endpoints, if the discovery service is used. -/
  discoveredEndpointsPort : Option UInt16
  shouldReconstructShreds : Bool
  debugTraceShred : Bool
  /-- Messages that the broadcast channel keeps. -/
  entryCapacity : Nat
  /-- The proxy also requests shreds. -/
  shredstream : Bool
  /-- There is an address to serve the metrics at. -/
  prometheusBindAddr : Bool

/-- Batches that may wait for the reconstructor. -/
def reconstructCapacity : Nat := 1024

/-- Where a forwarder stands. -/
inductive ForwarderStage where
  /-- It has not loaded the destinations yet. -/
  | starting
  /-- It is about to look at the exit flag. -/
  | checking
  /-- It waits for a batch, a tick or a shutdown message. -/
  | selecting
  /-- It is in a call, with the operations that are left. -/
  | forwarding (f : Forwarding) (ops : List ForwardOp)
  /-- It is in the panic hook, about to send a shutdown message. -/
  | panicking
  /-- Out of its loop. -/
  | stopped

/-- A forwarder, the channel from its listener, and whether the listener still holds that channel.
-/
structure ForwarderThread where
  packetReceiver : List PacketBatch
  listening : Bool
  localDestSockets : List SocketAddr
  stage : ForwarderStage

def ForwarderThread.initial : ForwarderThread := ⟨[], true, [], .starting⟩

/-- A forwarder that is done drops its channel with all that waits in it. -/
def ForwarderThread.stop (t : ForwarderThread) : ForwarderThread :=
  { t with packetReceiver := [], stage := .stopped }

/-- Where the reconstructor stands. -/
inductive ReconstructorStage where
  | checking
  | receiving
  /-- It sends the entries of the last call. -/
  | draining
  | stopped
deriving DecidableEq

/-- Where the accessory thread stands. -/
inductive AccessoryStage where
  | checking
  | selecting
  /-- It is in a round. -/
  | reporting
  | stopped
deriving DecidableEq

/-- Where the refresh thread stands. -/
inductive RefreshStage where
  | checking
  | selecting
  | stopped
deriving DecidableEq

/-- The threads of which only their part in the shutdown matters here. -/
inductive OtherThread where
  | heartbeat
  | reportMetrics
  | server
  | prometheus
deriving DecidableEq

def OtherThread.toThread : OtherThread → Thread
  | .heartbeat => .heartbeat
  | .reportMetrics => .reportMetrics
  | .server => .server
  | .prometheus => .prometheus

/-- The thread is started. -/
def ProxyConfig.spawns (cfg : ProxyConfig) : OtherThread → Bool
  | .heartbeat => cfg.shredstream
  | .reportMetrics => true
  | .server => cfg.shouldReconstructShreds
  | .prometheus => cfg.prometheusBindAddr

/-- A batch that a forwarder offered to the reconstructor, and how many batches waited. -/
structure Offer where
  forwarder : Nat
  packetBatch : PacketBatch
  waiting : Nat
  accepted : Bool

/-- What was reported for one source. -/
structure ReceiverStats where
  addr : IpAddr
  discardedPackets : UInt64
  notDiscardedPackets : UInt64

/-- All threads with what they share. The operations of the forwarders, their offers and the
reported statistics are a record of what happened; no thread reads them. -/
structure Proxy where
  exit : Bool
  /-- Messages that wait in the shutdown channel. -/
  shutdownReceiver : Nat
  /-- Messages that the signal handler still has to send. -/
  notifier : Nat
  forwarders : List ForwarderThread
  refreshStage : RefreshStage
  refresh : RefreshThread
  accessoryStage : AccessoryStage
  accessory : Accessory
  metrics : ShredMetrics
  packetsReceived : PacketsReceived
  reconstructRx : Queue PacketBatch
  reconstructor : ReconstructorStage
  service : EntryService
  others : OtherThread → WorkerStage
  executed : List (Nat × ForwardOp)
  offers : List Offer
  receiverStats : List ReceiverStats

/-! ## The steps -/

inductive ForwarderEvent where
  /-- The destinations are loaded for the first time. -/
  | load
  | check
  /-- A batch is taken from the channel. -/
  | recv (f : Forwarding)
  /-- The channel is empty and its listener is gone. -/
  | recvError
  | refreshTick
  | shutdown
  /-- The next operation of the call. -/
  | op
  | finish
  /-- The panic hook sends its message. -/
  | hookSend

inductive ReconstructorEvent where
  | check
  /-- A batch is taken from the queue, with the iteration order of the hash sets in this call. -/
  | recv (order : IterOrder) (packetBatch : PacketBatch)
  | drain
  | finish
  | timeout
  | disconnected

inductive AccessoryEvent where
  | check
  | metricsTick
  /-- The next operation on the counters. -/
  | op
  /-- The entry of one source is reported and removed. -/
  | retain (addr : IpAddr)
  | finish
  | deduperResetTick
  | shutdown

inductive RefreshThreadEvent where
  | check
  | fetchSocketTick (fetch : Fetch) (lookup : Lookup)
  | metricsTick
  | shutdown

inductive ProxyEvent where
  /-- The process gets a signal. -/
  | signal
  /-- The signal handler sends a shutdown message. -/
  | notify
  /-- A listener hands a batch over. -/
  | listen (i : Nat) (packetBatch : PacketBatch)
  /-- A listener ends. -/
  | listenerExit (i : Nat)
  | forwarder (i : Nat) (e : ForwarderEvent)
  | refreshThread (e : RefreshThreadEvent)
  | accessory (e : AccessoryEvent)
  | reconstructor (e : ReconstructorEvent)
  | other (thread : OtherThread) (e : WorkerEvent)
  /-- A client subscribes. -/
  | subscribeEntries
  /-- The task of a subscription takes an entry. -/
  | taskRecv (i : Nat)
  /-- The task of a subscription passes its entry on. -/
  | taskSend (i : Nat)
  /-- A client reads. -/
  | clientRead (i : Nat)
  /-- A client goes away. -/
  | clientDisconnect (i : Nat)

namespace Proxy

def initial (cfg : ProxyConfig) : Proxy where
  exit := false
  shutdownReceiver := 0
  notifier := 0
  forwarders := List.replicate cfg.numThreads ForwarderThread.initial
  refreshStage := if cfg.discoveredEndpointsPort.isSome then .checking else .stopped
  refresh := RefreshThread.start cfg.destIpPorts
  accessoryStage := .checking
  accessory := Accessory.initial
  metrics := ShredMetrics.new cfg.shouldReconstructShreds
  packetsReceived := fun _ => none
  -- without a service there is no reconstructor, and its end of the queue is dropped
  reconstructRx :=
    if cfg.shouldReconstructShreds then Queue.new reconstructCapacity
    else (Queue.new reconstructCapacity).disconnect
  reconstructor := if cfg.shouldReconstructShreds then .checking else .stopped
  service := EntryService.initial cfg.entryCapacity
  others := fun _ => .checking
  executed := []
  offers := []
  receiverStats := []

def setForwarder (p : Proxy) (i : Nat) (t : ForwarderThread) : Proxy :=
  { p with forwarders := p.forwarders.set i t }

/-- Offer a batch to the reconstructor.  A batch that it has no room for is dropped. -/
def trySend (p : Proxy) (i : Nat) (packetBatch : PacketBatch) : Proxy :=
  let waiting := p.reconstructRx.items.length
  match p.reconstructRx.send packetBatch with
  | .accepted reconstructRx =>
      { p with reconstructRx, offers := p.offers ++ [⟨i, packetBatch, waiting, true⟩] }
  | .full => { p with offers := p.offers ++ [⟨i, packetBatch, waiting, false⟩] }
  | .disconnected => { p with offers := p.offers ++ [⟨i, packetBatch, waiting, false⟩] }

/-- The effect of one operation of forwarder `i`. -/
def effect (p : Proxy) (i : Nat) : ForwardOp → Proxy
  | .fetchAdd c n => { p with metrics := p.metrics.fetchAdd c n }
  | .trySend packetBatch => p.trySend i packetBatch
  | .storeStats packet => { p with packetsReceived := storeStats p.packetsReceived packet }
  | .batchSend _ _ => p

/-- One operation of forwarder `i`. -/
def exec (p : Proxy) (i : Nat) (op : ForwardOp) : Proxy :=
  { p.effect i op with executed := p.executed ++ [(i, op)] }

/-- The call is about this batch, for these destinations, with the arguments of the proxy. -/
def Calls (cfg : ProxyConfig) (t : ForwarderThread) (packetBatch : PacketBatch) (f : Forwarding) :
    Prop :=
  f.packetBatch = packetBatch ∧ f.localDestSockets.map Send.destination = t.localDestSockets ∧
    f.shouldReconstructShreds = cfg.shouldReconstructShreds ∧
    f.debugTraceShred = cfg.debugTraceShred

instance (cfg : ProxyConfig) (t : ForwarderThread) (packetBatch : PacketBatch) (f : Forwarding) :
    Decidable (Calls cfg t packetBatch f) :=
  inferInstanceAs (Decidable (_ ∧ _))

/-- One step of forwarder `i`. -/
def stepForwarder (cfg : ProxyConfig) (p : Proxy) (i : Nat) (t : ForwarderThread) :
    ForwarderEvent → Option Proxy
  | .load =>
      match t.stage with
      | .starting =>
          some (p.setForwarder i
            { t with localDestSockets := p.refresh.unionedDestSockets, stage := .checking })
      | _ => none
  | .check =>
      match t.stage with
      | .checking =>
          some (p.setForwarder i (if p.exit then t.stop else { t with stage := .selecting }))
      | _ => none
  | .recv f =>
      match t.stage, t.packetReceiver with
      | .selecting, packetBatch :: packetReceiver =>
          if Calls cfg t packetBatch f then
            some (p.setForwarder i { t with packetReceiver, stage := .forwarding f f.ops })
          else none
      | _, _ => none
  | .recvError =>
      match t.stage, t.packetReceiver, t.listening with
      | .selecting, [], false => some (p.setForwarder i t.stop)
      | _, _, _ => none
  | .refreshTick =>
      match t.stage, cfg.discoveredEndpointsPort with
      | .selecting, some _ =>
          some (p.setForwarder i
            { t with localDestSockets := p.refresh.unionedDestSockets, stage := .checking })
      | _, _ => none
  | .shutdown =>
      match t.stage, p.shutdownReceiver with
      | .selecting, n + 1 => some ({ p with shutdownReceiver := n }.setForwarder i t.stop)
      | _, _ => none
  | .op =>
      match t.stage with
      | .forwarding f (op :: ops) =>
          some ((p.exec i op).setForwarder i { t with stage := .forwarding f ops })
      | _ => none
  | .finish =>
      match t.stage with
      | .forwarding f [] =>
          match (f.forward cfg.decode cfg.toSystemTime p.packetsReceived).result with
          | .ok (.ok ()) => some (p.setForwarder i { t with stage := .checking })
          | .ok (.error _) => some (p.setForwarder i t.stop)
          | .error _ => some ({ p with exit := true }.setForwarder i { t with stage := .panicking })
      | _ => none
  | .hookSend =>
      match t.stage with
      | .panicking =>
          if p.shutdownReceiver < maxShutdownMessages then
            some ({ p with shutdownReceiver := p.shutdownReceiver + 1 }.setForwarder i t.stop)
          else none
      | _ => none

/-- One step of the refresh thread. -/
def stepRefreshThread (cfg : ProxyConfig) (p : Proxy) : RefreshThreadEvent → Option Proxy
  | .check =>
      match p.refreshStage with
      | .checking => some { p with refreshStage := if p.exit then .stopped else .selecting }
      | _ => none
  | .fetchSocketTick fetch lookup =>
      match p.refreshStage, cfg.discoveredEndpointsPort with
      | .selecting, some port =>
          some
            { p with
              refreshStage := .checking
              refresh :=
                RefreshThread.step port cfg.destIpPorts p.refresh (.fetchSocketTick fetch lookup) }
      | _, _ => none
  | .metricsTick =>
      match p.refreshStage with
      | .selecting => some { p with refreshStage := .checking }
      | _ => none
  | .shutdown =>
      match p.refreshStage, p.shutdownReceiver with
      | .selecting, n + 1 => some { p with refreshStage := .stopped, shutdownReceiver := n }
      | _, _ => none

/-- One step of the accessory thread.  The statistics of the sources are reported after the counters
and before these are reset. -/
def stepAccessory (p : Proxy) : AccessoryEvent → Option Proxy
  | .check =>
      match p.accessoryStage with
      | .checking => some { p with accessoryStage := if p.exit then .stopped else .selecting }
      | _ => none
  | .metricsTick =>
      match p.accessoryStage with
      | .selecting =>
          let (accessory, metrics) := p.accessory.step p.metrics
          some { p with accessoryStage := .reporting, accessory, metrics }
      | _ => none
  | .op =>
      match p.accessoryStage, p.accessory.program with
      | .reporting, _ :: _ =>
          let (accessory, metrics) := p.accessory.step p.metrics
          some { p with accessory, metrics }
      | _, _ => none
  | .retain addr =>
      match p.accessoryStage, p.packetsReceived addr with
      | .reporting, some counts =>
          if p.accessory.program = reset then
            some
              { p with
                packetsReceived := Function.update p.packetsReceived addr none
                receiverStats := p.receiverStats ++ [⟨addr, counts.1, counts.2⟩] }
          else none
      | _, _ => none
  | .finish =>
      match p.accessoryStage, p.accessory.program with
      | .reporting, [] => some { p with accessoryStage := .checking }
      | _, _ => none
  | .deduperResetTick =>
      match p.accessoryStage with
      | .selecting => some { p with accessoryStage := .checking }
      | _ => none
  | .shutdown =>
      match p.accessoryStage, p.shutdownReceiver with
      | .selecting, n + 1 => some { p with accessoryStage := .stopped, shutdownReceiver := n }
      | _, _ => none

/-- One step of the reconstructor.  When it is done, its end of the queue is dropped. -/
def stepReconstructor (cfg : ProxyConfig) (p : Proxy) : ReconstructorEvent → Option Proxy
  | .check =>
      match p.reconstructor with
      | .checking =>
          if p.exit then
            some { p with reconstructor := .stopped, reconstructRx := p.reconstructRx.disconnect }
          else some { p with reconstructor := .receiving }
      | _ => none
  | .recv order packetBatch =>
      match p.reconstructor, p.reconstructRx.items with
      | .receiving, next :: items =>
          if next = packetBatch then
            some
              { p with
                reconstructor := .draining
                reconstructRx := { p.reconstructRx with items }
                service :=
                  p.service.step cfg.ledger
                    (.reconstruct ⟨order, packetBatch.map SourcedPacket.toPacket⟩) }
          else none
      | _, _ => none
  | .drain =>
      match p.reconstructor, p.service.deshreddedEntries with
      | .draining, _ :: _ => some { p with service := p.service.step cfg.ledger .drain }
      | _, _ => none
  | .finish =>
      match p.reconstructor, p.service.deshreddedEntries with
      | .draining, [] => some { p with reconstructor := .checking }
      | _, _ => none
  | .timeout =>
      match p.reconstructor, p.reconstructRx.items with
      | .receiving, [] => some { p with reconstructor := .checking }
      | _, _ => none
  | .disconnected =>
      match p.reconstructor, p.reconstructRx.items with
      | .receiving, [] =>
          if p.forwarders.all fun t => t.stage matches .stopped then
            some { p with reconstructor := .stopped, reconstructRx := p.reconstructRx.disconnect }
          else none
      | _, _ => none

/-- One step of a thread that only takes part in the shutdown. -/
def stepOther (cfg : ProxyConfig) (p : Proxy) (thread : OtherThread) (e : WorkerEvent) :
    Option Proxy :=
  if cfg.spawns thread then
    (Worker.step p.exit p.shutdownReceiver ⟨thread.toThread, p.others thread⟩ e).map
      fun (exit, shutdownReceiver, stage) =>
        { p with exit, shutdownReceiver, others := Function.update p.others thread stage }
  else none

/-- One step of any thread. -/
def step (cfg : ProxyConfig) (p : Proxy) : ProxyEvent → Option Proxy
  | .signal =>
      match p.notifier with
      | 0 => some { p with exit := true, notifier := maxShutdownMessages }
      | _ + 1 => none
  | .notify =>
      match p.notifier with
      | 0 => none
      | n + 1 =>
          if p.shutdownReceiver < maxShutdownMessages then
            some { p with notifier := n, shutdownReceiver := p.shutdownReceiver + 1 }
          else none
  | .listen i packetBatch =>
      match p.forwarders[i]? with
      | some t =>
          match t.listening, t.stage with
          | true, .stopped => none
          | true, _ =>
              some (p.setForwarder i { t with packetReceiver := t.packetReceiver ++ [packetBatch] })
          | false, _ => none
      | none => none
  | .listenerExit i =>
      match p.forwarders[i]? with
      | some t =>
          -- a listener ends with the flag, or when it cannot hand a batch over
          match t.listening, t.stage, p.exit with
          | true, .stopped, _ => some (p.setForwarder i { t with listening := false })
          | true, _, true => some (p.setForwarder i { t with listening := false })
          | _, _, _ => none
      | none => none
  | .forwarder i e =>
      match p.forwarders[i]? with
      | some t => p.stepForwarder cfg i t e
      | none => none
  | .refreshThread e => p.stepRefreshThread cfg e
  | .accessory e => p.stepAccessory e
  | .reconstructor e => p.stepReconstructor cfg e
  | .other thread e => p.stepOther cfg thread e
  | .subscribeEntries => some { p with service := p.service.step cfg.ledger .subscribeEntries }
  | .taskRecv i => some { p with service := p.service.step cfg.ledger (.recv i) }
  | .taskSend i => some { p with service := p.service.step cfg.ledger (.send i) }
  | .clientRead i => some { p with service := p.service.step cfg.ledger (.read i) }
  | .clientDisconnect i => some { p with service := p.service.step cfg.ledger (.disconnect i) }

/-- The state after some steps. -/
def run (cfg : ProxyConfig) (events : List ProxyEvent) : Option Proxy :=
  EventRun.run (step cfg) (initial cfg) events

end Proxy

end ShredstreamProxy
