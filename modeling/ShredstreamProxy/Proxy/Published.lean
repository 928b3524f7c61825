import ShredstreamProxy.Proxy.Batches

/-!
# Which destinations a batch goes to

The refresh thread publishes a new list of destinations while forwarders run.  A forwarder works
with the list that it loaded when it started or at its last tick, so that a call sends to one
published list, whatever is published in the meantime.

Main results:

- Theorem {lit}`Proxy.refresh_eq`: the refresh thread in an interleaving is the refresh thread
  alone.
- Theorem {lit}`destinations_published`: the destinations of a call are one published list.
-/

namespace ShredstreamProxy

/-- What the refresh thread does. -/
def ProxyEvent.refreshEvent : ProxyEvent → Option RefreshEvent
  | .refreshThread (.fetchSocketTick fetch lookup) => some (.fetchSocketTick fetch lookup)
  | _ => none

namespace Proxy

variable {cfg : ProxyConfig} {p p' : Proxy} {events past : List ProxyEvent} {e : ProxyEvent}
  {i : Nat} {t t' : ForwarderThread}

/-- The refresh thread after the events that concern it.  There is none without a discovery
service. -/
def refreshAfter (cfg : ProxyConfig) (events : List ProxyEvent) : RefreshThread :=
  match cfg.discoveredEndpointsPort with
  | some port =>
      RefreshThread.run port cfg.destIpPorts (events.filterMap ProxyEvent.refreshEvent)
  | none => RefreshThread.start cfg.destIpPorts

/-- Other events leave the destinations alone. -/
theorem refreshAfter_concat_of_none (h : e.refreshEvent = none) :
    refreshAfter cfg (past ++ [e]) = refreshAfter cfg past := by
  simp [refreshAfter, h]

/-- Signals and shutdown messages are no refresh. -/
theorem refreshEvent_of_isControl (h : e.isControl = true) : e.refreshEvent = none := by
  cases e with
  | refreshThread e =>
      cases e with
      | fetchSocketTick fetch lookup => exact absurd h Bool.false_ne_true
      | _ => rfl
  | _ => rfl

/-- The refresh thread does not depend on the other threads. -/
theorem refresh_eq (h : run cfg events = some p) : p.refresh = refreshAfter cfg events := by
  refine run_induction (I := fun events p => p.refresh = refreshAfter cfg events) ?_ ?_ h
  · unfold refreshAfter
    split <;> rfl
  · intro past p e p' _ hI hstep
    cases hstep with
    | control he =>
        rw [refreshAfter_concat_of_none (refreshEvent_of_isControl he)]
        exact hI
    | thread hi hstep =>
        rw [refreshAfter_concat_of_none (by cases hstep <;> rfl)]
        exact hI
    | op =>
        rw [refreshAfter_concat_of_none rfl, ← hI, exec_eq]
        rfl
    | @publish port fetch lookup hport =>
        have hlast : (past ++ [ProxyEvent.refreshThread (.fetchSocketTick fetch lookup)]).filterMap
            ProxyEvent.refreshEvent = past.filterMap ProxyEvent.refreshEvent ++
              [.fetchSocketTick fetch lookup] := by
          simp [ProxyEvent.refreshEvent]
        simp only [refreshAfter, hport] at hI ⊢
        rw [hlast, RefreshThread.run_concat, hI]
    | accessory | retain | recv | stopReconstructor | drain =>
        rw [refreshAfter_concat_of_none rfl]
        exact hI
    | client he =>
        have hnone : e.refreshEvent = none := by
          unfold ProxyEvent.action at he
          split at he <;> first | rfl | contradiction
        rw [refreshAfter_concat_of_none hnone]
        exact hI

/-- The list that is published after some events. -/
def published (cfg : ProxyConfig) (events : List ProxyEvent) : List SocketAddr :=
  (refreshAfter cfg events).unionedDestSockets

/-- After these events forwarder `i` loaded the published list, and not again since. -/
def LastLoad (i : Nat) (before events : List ProxyEvent) : Prop :=
  ∃ e after, events = before ++ e :: after ∧ e.loads i = true ∧ ∀ e' ∈ after, e'.loads i = false

/-- The last load stays the last one until the next. -/
theorem LastLoad.concat {before : List ProxyEvent} (h : LastLoad i before past)
    (he : e.loads i = false) : LastLoad i before (past ++ [e]) := by
  rcases h with ⟨load, after, rfl, hload, hafter⟩
  refine ⟨load, after ++ [e], by simp, hload, ?_⟩
  intro e' he'
  rcases List.mem_append.mp he' with he' | he'
  · exact hafter e' he'
  · rw [List.mem_singleton.mp he']
    exact he

/-- A forwarder that has started works with the list it loaded last. -/
theorem localDestSockets_eq (h : run cfg events = some p) (hi : p.forwarders[i]? = some t)
    (hstage : t.stage ≠ .starting) :
    ∃ before, LastLoad i before events ∧ t.localDestSockets = published cfg before := by
  refine forwarder_induction (I := fun events _ t => t.stage ≠ .starting →
    ∃ before, LastLoad i before events ∧ t.localDestSockets = published cfg before)
    (fun h => absurd rfl h) ?_ h hi hstage
  intro past p e p' t t' hrun hI hmoves hstage'
  have hload : e.loads i = true → ∃ before, LastLoad i before (past ++ [e]) ∧
      p.refresh.unionedDestSockets = published cfg before := by
    intro he
    refine ⟨past, ⟨e, [], rfl, he, by simp⟩, ?_⟩
    rw [refresh_eq hrun]
    rfl
  have hkeep : t.stage ≠ .starting → e.loads i = false →
      ∃ before, LastLoad i before (past ++ [e]) ∧ t.localDestSockets = published cfg before := by
    intro hstage he
    rcases hI hstage with ⟨before, hlast, heq⟩
    exact ⟨before, hlast.concat he, heq⟩
  cases hmoves with
  | other habout => exact hkeep hstage' (ProxyEvent.loads_of_about habout)
  | op hstage => exact hkeep (by simp [hstage]) rfl
  | thread hstep =>
      cases hstep with
      | listen packetBatch hstage => exact hkeep hstage' rfl
      | listenerExit => exact hkeep hstage' rfl
      | load => exact hload (by simp [ProxyEvent.loads])
      | refreshTick => exact hload (by simp [ProxyEvent.loads])
      | check hstage | recv f rest hstage | finish f hstage | panic f hstage =>
          exact hkeep (by simp [hstage]) rfl
      | stop e _ hloads hstage => exact hkeep hstage hloads

/-- A call sends to the list that its forwarder loaded last. -/
theorem sends_eq_published {earlier later : List ProxyEvent} {f : Forwarding}
    (h : run cfg (earlier ++ ProxyEvent.forwarder i (.recv f) :: later) = some p) :
    ∃ before, LastLoad i before earlier ∧ (sends f).map Prod.fst = published cfg before := by
  rcases exists_calls_of_recv h with ⟨q, t, hrun, hi, hstage, hcalls⟩
  rcases localDestSockets_eq hrun hi (by simp [hstage]) with ⟨before, hlast, hlocal⟩
  refine ⟨before, hlast, ?_⟩
  rw [← hlocal, ← hcalls.2.1]
  simp [sends]

/-- Without a discovery service the list never changes. -/
theorem published_eq_statics (h : cfg.discoveredEndpointsPort = none) (events : List ProxyEvent) :
    published cfg events = cfg.destIpPorts.map Prod.fst := by
  simp [published, refreshAfter, h, RefreshThread.start]

end Proxy

open Proxy

/-- In every interleaving, a call sends to exactly the list that was published when its forwarder
last loaded the destinations; without a discovery service this is the list that the proxy was
started with. -/
theorem destinations_published (cfg : ProxyConfig) (earlier later : List ProxyEvent) (i : Nat)
    (f : Forwarding) (p : Proxy)
    (h : Proxy.run cfg (earlier ++ ProxyEvent.forwarder i (.recv f) :: later) = some p) :
    ∃ before, LastLoad i before earlier ∧
      (sends f).map Prod.fst = published cfg before ∧
      (cfg.discoveredEndpointsPort = none →
        (sends f).map Prod.fst = cfg.destIpPorts.map Prod.fst) := by
  rcases sends_eq_published h with ⟨before, hlast, hsends⟩
  exact ⟨before, hlast, hsends, fun hport => hsends.trans (published_eq_statics hport before)⟩

namespace Sample

/-- The same proxy with a discovery service. -/
def discoveryConfig : ProxyConfig :=
  { proxyConfig with discoveredEndpointsPort := some 9000 }

/-- A new list is published after the forwarder has loaded the first one. -/
def refreshEvents : List ProxyEvent :=
  [.forwarder 0 .load, .refreshThread .check,
    .refreshThread (.fetchSocketTick (.ips [.v4 3]) fun _ _ => none),
    .forwarder 0 .check, .listen 0 [sourcedPacket]]

end Sample

/-- A call that still sends to the destinations of the last load. -/
theorem destinations_published_sample :
    published Sample.discoveryConfig Sample.refreshEvents = [⟨.v4 3, 9000⟩] ∧
      (sends Sample.oneBatch).map Prod.fst = [⟨.v4 1, 8001⟩, ⟨.v4 2, 8001⟩] ∧
      ∃ before, LastLoad 0 before Sample.refreshEvents ∧
        (sends Sample.oneBatch).map Prod.fst = published Sample.discoveryConfig before ∧
        (Sample.discoveryConfig.discoveredEndpointsPort = none →
          (sends Sample.oneBatch).map Prod.fst =
            Sample.discoveryConfig.destIpPorts.map Prod.fst) :=
  ⟨by decide, by decide, destinations_published Sample.discoveryConfig Sample.refreshEvents [] 0
    Sample.oneBatch _ rfl⟩

end ShredstreamProxy
