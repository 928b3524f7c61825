import ShredstreamProxy.Multicast.Config
import ShredstreamProxy.Proxy.Published
import ShredstreamProxy.Shutdown.Refinement

/-!
# Starting the proxy

The main function checks its arguments, opens the multicast sockets and starts the threads.  What it
starts is the machine of all threads together with the list of threads that take part in the
shutdown, so a result about either of them can be stated for the arguments that the proxy was given.

Main results:

- Theorem {lit}`CommonArgs.check_eq_ok_iff`: which arguments the proxy starts with.
- Theorem {lit}`exists_tracks_of_main`: the machine of a started proxy has the threads that were
  started.
- Theorem {lit}`started_has_destinations`: what a started proxy sends its packets to.
- Theorem {lit}`takers_le_of_main`: how many threads wait for a shutdown message.
- Theorem {lit}`started_shutdown_ends`: a started proxy can be shut down.
-/

namespace ShredstreamProxy

/-! ## Arguments -/

/-- The arguments of the proxy, as far as its start depends on them. -/
structure CommonArgs where
  multicastBindIp : Option IpAddr
  multicastDevice : String
  multicastSubscribePort : UInt16
  destIpPorts : List StaticDest
  endpointDiscoveryUrl : Option String
  discoveredEndpointsPort : Option UInt16
  debugTraceShred : Bool
  grpcServicePort : Option UInt16
  numThreads : Option Nat
  prometheusBindAddr : Option SocketAddr

/-- The ways to run: with forwarders, requesting shreds or not, or only requesting shreds for
another process. -/
inductive ProxySubcommands where
  | shredstream (commonArgs : CommonArgs)
  | forwardOnly (commonArgs : CommonArgs)
  | subscribeOnly

/-- What is wrong with the arguments. -/
inductive InvalidInput where
  | dynamicEndpoints
  | noDestinations
deriving DecidableEq

def InvalidInput.message : InvalidInput → String
  | dynamicEndpoints =>
      "Invalid arguments provided, dynamic endpoints requires both " ++
        "--endpoint-discovery-url and --discovered-endpoints-port."
  | noDestinations =>
      "No destinations found. You must provide values for " ++
        "--dest-ip-ports or --endpoint-discovery-url."

namespace CommonArgs

/-- The checks on the arguments, in their order. -/
def check (args : CommonArgs) : Except InvalidInput Unit :=
  if (args.endpointDiscoveryUrl.isNone && args.discoveredEndpointsPort.isSome) ||
      (args.endpointDiscoveryUrl.isSome && args.discoveredEndpointsPort.isNone) then
    .error .dynamicEndpoints
  else if args.endpointDiscoveryUrl.isNone && args.discoveredEndpointsPort.isNone &&
      args.destIpPorts.isEmpty then
    .error .noDestinations
  else .ok ()

def useDiscoveryService (args : CommonArgs) : Bool :=
  args.endpointDiscoveryUrl.isSome && args.discoveredEndpointsPort.isSome

/-- Listeners on the proxy's own port; at most four unless told otherwise. -/
def listeners (args : CommonArgs) (availableParallelism : Nat) : Nat :=
  args.numThreads.getD (min availableParallelism 4)

/-- The multicast sockets that could be opened. -/
def multicastSocket (args : CommonArgs) (host : Host) : Option (List UdpSocket) :=
  createMulticastSocketOnDevice host args.multicastDevice args.multicastSubscribePort
    args.multicastBindIp

/-- One forwarder for each socket that shreds arrive at. -/
def sockets (args : CommonArgs) (host : Host) (availableParallelism : Nat) : Nat :=
  args.listeners availableParallelism + ((args.multicastSocket host).getD []).length

end CommonArgs

/-- What the proxy is built on: the machine it runs on, and the libraries. -/
structure Environment where
  host : Host
  availableParallelism : Nat
  ledger : Ledger
  decode : Bytes → Option TraceShred
  toSystemTime : Timestamp → Option SystemTime

/-- Messages that the broadcast channel of the entries keeps: it is made for 100, and the library
rounds this up to a power of two. -/
def entryChannelCapacity : Nat := 128

/-- A running process: the machine of the forwarders, if there are any, the threads that the main
thread joins, and the others. -/
structure Started where
  config : Option ProxyConfig
  threadHandles : List Thread
  detached : List Thread

namespace CommonArgs

def config (args : CommonArgs) (env : Environment) (shredstream : Bool) : ProxyConfig where
  ledger := env.ledger
  decode := env.decode
  toSystemTime := env.toSystemTime
  numThreads := args.sockets env.host env.availableParallelism
  destIpPorts := args.destIpPorts
  discoveredEndpointsPort := if args.useDiscoveryService then args.discoveredEndpointsPort else none
  shouldReconstructShreds := args.grpcServicePort.isSome
  debugTraceShred := args.debugTraceShred
  entryCapacity := entryChannelCapacity
  shredstream := shredstream
  prometheusBindAddr := args.prometheusBindAddr.isSome

def threadArgs (args : CommonArgs) (env : Environment) (shredstream : Bool) : ThreadArgs where
  shredstream := shredstream
  grpcServicePort := args.grpcServicePort
  sockets := args.sockets env.host env.availableParallelism
  useDiscoveryService := args.useDiscoveryService
  prometheusBindAddr := args.prometheusBindAddr.isSome

/-- Check the arguments and start the threads. -/
def start (args : CommonArgs) (env : Environment) (shredstream : Bool) :
    Except InvalidInput Started := do
  args.check
  pure
    { config := some (args.config env shredstream)
      threadHandles := (args.threadArgs env shredstream).threadHandles
      detached := (args.threadArgs env shredstream).detached }

end CommonArgs

def main (env : Environment) : ProxySubcommands → Except InvalidInput Started
  | .shredstream args => args.start env true
  | .forwardOnly args => args.start env false
  | .subscribeOnly => .ok ⟨none, [.heartbeat], []⟩

/-! ## Destinations -/

variable {env : Environment} {args : CommonArgs}

/-- The arguments are accepted when both or none of the arguments for discovery are given, and
there is some source of destinations. -/
theorem CommonArgs.check_eq_ok_iff :
    args.check = .ok () ↔
      (args.endpointDiscoveryUrl.isSome = args.discoveredEndpointsPort.isSome) ∧
        (args.useDiscoveryService = true ∨ args.destIpPorts ≠ []) := by
  unfold CommonArgs.check CommonArgs.useDiscoveryService
  cases args.endpointDiscoveryUrl <;> cases args.discoveredEndpointsPort <;>
    cases args.destIpPorts <;> simp

/-- The proxy is started when its arguments are accepted. -/
theorem CommonArgs.start_eq_ok_iff {shredstream : Bool} {started : Started} :
    args.start env shredstream = .ok started ↔ args.check = .ok () ∧
      started = ⟨some (args.config env shredstream),
        (args.threadArgs env shredstream).threadHandles,
        (args.threadArgs env shredstream).detached⟩ := by
  unfold CommonArgs.start
  cases args.check with
  | error e => simp [bind, Except.bind]
  | ok u => simp [bind, Except.bind, pure, Except.pure, eq_comm]

/-- The machine of the proxy is that of accepted arguments, which also say what threads there are.
-/
theorem exists_args_of_main {command : ProxySubcommands} {started : Started} {cfg : ProxyConfig}
    (h : main env command = .ok started) (hcfg : started.config = some cfg) :
    ∃ (args : CommonArgs) (shredstream : Bool), args.check = .ok () ∧
      cfg = args.config env shredstream ∧
      started.threadHandles = (args.threadArgs env shredstream).threadHandles ∧
      started.detached = (args.threadArgs env shredstream).detached := by
  cases command with
  | shredstream args | forwardOnly args =>
      rcases CommonArgs.start_eq_ok_iff.mp h with ⟨hcheck, rfl⟩
      exact ⟨args, _, hcheck, (Option.some.inj hcfg).symm, rfl, rfl⟩
  | subscribeOnly =>
      obtain rfl := Except.ok.inj h
      contradiction

/-- The machine of the proxy has the threads that the arguments ask for. -/
theorem CommonArgs.threadArgs_config (args : CommonArgs) (env : Environment) (shredstream : Bool) :
    (args.config env shredstream).threadArgs (args.grpcServicePort.getD 0) =
      args.threadArgs env shredstream := by
  have hport : (if args.useDiscoveryService then args.discoveredEndpointsPort else none).isSome =
      args.useDiscoveryService := by
    unfold CommonArgs.useDiscoveryService
    cases args.endpointDiscoveryUrl <;> cases args.discoveredEndpointsPort <;> rfl
  have hservice : (if (args.config env shredstream).shouldReconstructShreds then
      some (args.grpcServicePort.getD 0) else none) = args.grpcServicePort := by
    rw [CommonArgs.config]
    cases args.grpcServicePort <;> rfl
  rw [ProxyConfig.threadArgs, hservice]
  simp only [CommonArgs.config, CommonArgs.threadArgs, hport]

/-- Every run of a started proxy is one of the shutdown protocol with the threads that were
started. -/
theorem exists_tracks_of_main {command : ProxySubcommands} {started : Started} {cfg : ProxyConfig}
    (h : main env command = .ok started) (hcfg : started.config = some cfg)
    {events : List ProxyEvent} {p : Proxy} (hrun : Proxy.run cfg events = some p) :
    ∃ protocol s, Shutdown.run started.threadHandles started.detached protocol = some s ∧
      Shutdown.signals protocol = Proxy.signals events ∧ Proxy.Tracks cfg p s := by
  rcases exists_args_of_main h hcfg with ⟨args, shredstream, _, rfl, hjoined, hdetached⟩
  rw [hjoined, hdetached, ← args.threadArgs_config]
  exact Proxy.exists_tracks hrun _

/-- Whatever arguments the proxy was started with, every call of a forwarder sends its packets to
some destination, unless the destinations are discovered. -/
theorem started_has_destinations (env : Environment) (command : ProxySubcommands)
    (started : Started) (cfg : ProxyConfig) (hstart : main env command = .ok started)
    (hcfg : started.config = some cfg) (earlier later : List ProxyEvent) (i : Nat)
    (f : Forwarding) (p : Proxy)
    (h : Proxy.run cfg (earlier ++ ProxyEvent.forwarder i (.recv f) :: later) = some p) :
    Proxy.sends f ≠ [] ∨ ∃ port, cfg.discoveredEndpointsPort = some port := by
  rcases exists_args_of_main hstart hcfg with ⟨args, shredstream, hcheck, rfl, _⟩
  rcases CommonArgs.check_eq_ok_iff.mp hcheck with ⟨_, hsource⟩
  cases hport : (args.config env shredstream).discoveredEndpointsPort with
  | some port => exact Or.inr ⟨port, rfl⟩
  | none =>
      left
      -- without a port there is no discovery, so there are static destinations
      have hstatic : args.destIpPorts ≠ [] := by
        refine hsource.resolve_left fun hdiscovery => ?_
        have hsome := hdiscovery
        rw [CommonArgs.useDiscoveryService, Bool.and_eq_true] at hsome
        simp only [CommonArgs.config, hdiscovery, if_true] at hport
        rw [hport] at hsome
        exact absurd hsome.2 (by simp)
      rcases Proxy.sends_eq_published h with ⟨before, _, hsends⟩
      rw [Proxy.published_eq_statics hport] at hsends
      intro hnil
      rw [hnil, List.map_nil, eq_comm, List.map_eq_nil_iff] at hsends
      exact hstatic hsends

namespace Sample

/-- Arguments for one listener with two destinations. -/
def commonArgs : CommonArgs where
  multicastBindIp := none
  multicastDevice := "doublezero1"
  multicastSubscribePort := 20001
  destIpPorts := destIpPorts
  endpointDiscoveryUrl := none
  discoveredEndpointsPort := none
  debugTraceShred := false
  grpcServicePort := some 9999
  numThreads := some 1
  prometheusBindAddr := none

/-- A machine without the device. -/
def environment : Environment where
  host := ⟨fun _ => none, Sample.json, fun _ => true, fun _ => true⟩
  availableParallelism := 8
  ledger := Ledger.sample
  decode := fun _ => none
  toSystemTime := fun _ => none

/-- What is running then, with heartbeats or without. -/
def started (shredstream : Bool) : Started where
  config := some (commonArgs.config environment shredstream)
  threadHandles := (commonArgs.threadArgs environment shredstream).threadHandles
  detached := (commonArgs.threadArgs environment shredstream).detached

/-- The arguments are accepted. -/
theorem start_commonArgs (shredstream : Bool) :
    commonArgs.start environment shredstream = .ok (started shredstream) :=
  CommonArgs.start_eq_ok_iff.mpr ⟨by decide, rfl⟩

end Sample

/-- A started proxy whose call has somewhere to send its packets. -/
theorem started_has_destinations_sample :
    main Sample.environment (.forwardOnly Sample.commonArgs) = .ok (Sample.started false) ∧
      (Proxy.sends Sample.oneBatch ≠ [] ∨
        ∃ port, (Sample.commonArgs.config Sample.environment false).discoveredEndpointsPort =
          some port) :=
  ⟨Sample.start_commonArgs false,
    started_has_destinations Sample.environment (.forwardOnly Sample.commonArgs)
      (Sample.started false) _ (Sample.start_commonArgs false) rfl
      [.forwarder 0 .load, .forwarder 0 .check, .listen 0 [Sample.sourcedPacket]] [] 0
      Sample.oneBatch _ rfl⟩

/-! ## Shutdown -/

/-- Listeners that the command asks for. -/
def ProxySubcommands.listeners (availableParallelism : Nat) : ProxySubcommands → Nat
  | .shredstream args => args.listeners availableParallelism
  | .forwardOnly args => args.listeners availableParallelism
  | .subscribeOnly => 0

/-- There is one multicast socket for each family at most. -/
theorem CommonArgs.length_multicastSocket_le (args : CommonArgs) (host : Host) :
    ((args.multicastSocket host).getD []).length ≤ 2 := by
  rw [CommonArgs.multicastSocket, createMulticastSocketOnDevice_eq]
  split
  · exact Nat.zero_le 2
  · have hlength := (multicastSockets_addr_sublist host args.multicastDevice
      args.multicastSubscribePort
      (multicastGroups host args.multicastDevice args.multicastBindIp)).length_le
    simpa using hlength

/-- Each listener has its forwarder, and seven more threads at most take shutdown messages. -/
theorem CommonArgs.takers_le (args : CommonArgs) (env : Environment) (shredstream : Bool) :
    ((args.threadArgs env shredstream).threadHandles ++
        (args.threadArgs env shredstream).detached).countP Thread.takesMessages ≤
      args.listeners env.availableParallelism + 7 := by
  have htakers := (args.threadArgs env shredstream).takers_le
  have hmulticast := args.length_multicastSocket_le env.host
  simp only [CommonArgs.threadArgs, CommonArgs.sockets] at htakers ⊢
  omega

/-- The threads that take shutdown messages are the listeners' forwarders and at most seven more. -/
theorem takers_le_of_main {command : ProxySubcommands} {started : Started}
    (h : main env command = .ok started) :
    (started.threadHandles ++ started.detached).countP Thread.takesMessages ≤
      command.listeners env.availableParallelism + 7 := by
  cases command with
  | shredstream args | forwardOnly args =>
      rcases CommonArgs.start_eq_ok_iff.mp h with ⟨_, rfl⟩
      exact args.takers_le env _
  | subscribeOnly =>
      obtain rfl := Except.ok.inj h
      change 1 ≤ 0 + 7
      decide

/-- Started with no more than 249 listeners, the default among them, the process can be shut down:
once the messages of a signal are sent, every continuation has at most four steps of each thread.
When nothing happens any more, the main thread has ended, a panic hook waits for room in the full
channel, or the main thread joins a thread that waits for another machine. -/
theorem started_shutdown_ends (env : Environment) (command : ProxySubcommands) (started : Started)
    (hstart : main env command = .ok started)
    (hlisteners : command.listeners env.availableParallelism ≤ 249)
    (events later : List ShutdownEvent) (s s' : Shutdown)
    (h : Shutdown.run started.threadHandles started.detached events = some s)
    (hsignal : 0 < Shutdown.signals events) (hsent : s.notifier = 0)
    (hlater : EventRun.run Shutdown.step s later = some s') :
    (∀ i, later.countP (ShutdownEvent.isStepOf i) ≤ 4) ∧
      (s'.Stuck → s'.main.finished = true ∨ s'.HookWaits ∨ s'.AwaitsAnswer) := by
  have htakers : (started.threadHandles ++ started.detached).countP Thread.takesMessages ≤
      maxShutdownMessages := by
    have hle := takers_le_of_main hstart
    simp only [maxShutdownMessages]
    omega
  exact Shutdown.ends_of_supplied h (Shutdown.supplied_of_run h htakers hsignal hsent) hlater

/-- The server and the reconstructor see the exit flag too. -/
def Sample.restingServerEvents : List ShutdownEvent :=
  restingEvents ++ [.worker 4 .check, .worker 5 .check]

/-- A proxy with heartbeats is signalled.  It is stuck as long as a heartbeat is not answered, and
then comes to its end. -/
theorem started_shutdown_ends_sample :
    ∃ s s' s'', main Sample.environment (.shredstream Sample.commonArgs) =
        .ok (Sample.started true) ∧
      Shutdown.run (Sample.started true).threadHandles (Sample.started true).detached
        Sample.sentEvents = some s ∧
      EventRun.run Shutdown.step s Sample.restingServerEvents = some s' ∧ s'.Stuck ∧
      s'.workers[0]? = some ⟨.heartbeat, .asking⟩ ∧
      EventRun.run Shutdown.step s' (Sample.answeredEvents ++ List.replicate 6 .join) =
        some s'' ∧ s''.main = .returned ∧
      (∀ i, Sample.restingServerEvents.countP (ShutdownEvent.isStepOf i) ≤ 4) ∧
      (s'.main.finished = true ∨ s'.HookWaits ∨ s'.AwaitsAnswer) := by
  have hrun : Shutdown.run (Sample.started true).threadHandles (Sample.started true).detached
      Sample.sentEvents = some
        { exit := true
          shutdownReceiver := 256
          notifier := 0
          workers :=
            [⟨.heartbeat, .asking⟩, ⟨.forwarder false, .waiting⟩, ⟨.reportMetrics, .checking⟩,
              ⟨.accessory, .checking⟩, ⟨.server, .checking⟩, ⟨.reconstructor, .checking⟩]
          threadHandles := 5
          main := .joining 0 } := by
    decide +kernel
  have hstuck : Shutdown.Stuck
      { exit := true
        shutdownReceiver := 255
        notifier := 0
        workers :=
          [⟨.heartbeat, .asking⟩, ⟨.forwarder false, .stopped .message⟩,
            ⟨.reportMetrics, .stopped .exit⟩, ⟨.accessory, .stopped .exit⟩,
            ⟨.server, .stopped .exit⟩, ⟨.reconstructor, .stopped .exit⟩]
        threadHandles := 5
        main := .joining 0 } :=
    Shutdown.stuck_of_awaitsAnswer rfl (by decide) rfl rfl rfl (by decide)
  have hends := started_shutdown_ends Sample.environment (.shredstream Sample.commonArgs)
    (Sample.started true) (Sample.start_commonArgs true) (by decide) Sample.sentEvents
    Sample.restingServerEvents _ _ hrun (by decide +kernel) rfl rfl
  exact ⟨_, _, _, Sample.start_commonArgs true, hrun, rfl, hstuck, rfl, rfl, rfl, hends.1,
    hends.2 hstuck⟩

end ShredstreamProxy
