import ShredstreamProxy.Protos

/-!
# Refreshing the destinations

The refresh thread asks the discovery service for addresses, resolves the destinations given on the
command line once more, and publishes the union for the forwarder threads.  A destination that does
not resolve is left out of the union.  The run keeps, beside the published list, the address from
the most recent successful resolution of every static destination; nothing reads it.

Main results:

- Theorem {lit}`RefreshThread.step_cases`: a step is a successful refresh, or leaves the lists
  alone.
- Theorem {lit}`keeps_statics_iff`: when no static destination is lost in a run.
- Theorem {lit}`static_destination_lost`: a run in which one is.
-/

namespace ShredstreamProxy

/-- The address and the host name of a destination given on the command line. -/
abbrev StaticDest := SocketAddr × String

/-- The answer of the discovery service. -/
inductive Fetch where
  | httpError
  | badJson
  | ips (ips : List IpAddr)

/-- The addresses that a host name resolves to, at the turn of each static destination;
{lean}`none` is an error. -/
abbrev Lookup := Nat → String → Option (List SocketAddr)

/-- The first address of a host name. -/
def resolveHostnamePort (toSocketAddrs : String → Option (List SocketAddr))
    (hostnamePort : String) : Option (SocketAddr × String) :=
  (toSocketAddrs hostnamePort).bind fun addrs => addrs.head?.map fun addr => (addr, hostnamePort)

/-- The static destinations that resolve. -/
def resolveStatics (staticDestSockets : List StaticDest) (lookup : Lookup) : List SocketAddr :=
  staticDestSockets.zipIdx.filterMap fun d =>
    (resolveHostnamePort (lookup d.2) d.1.2).map Prod.fst

/-- The discovered addresses, on the port for discovered endpoints. -/
def discovered (port : UInt16) (ips : List IpAddr) : List SocketAddr :=
  ips.map fun ip => ⟨ip, port⟩

/-- Discovered endpoints with the static ones. -/
def fetchUnionedDestinations (port : UInt16) (staticDestSockets : List StaticDest) (fetch : Fetch)
    (lookup : Lookup) : Option (List SocketAddr) :=
  match fetch with
  | .httpError => none
  | .badJson => none
  | .ips ips => some (discovered port ips ++ resolveStatics staticDestSockets lookup).eraseDups

/-- What the refresh thread waits for. -/
inductive RefreshEvent where
  | fetchSocketTick (fetch : Fetch) (lookup : Lookup)
  | metricsTick
  | shutdown

/-- The published list, whether the thread runs, and the most recent address of every static
destination. -/
structure RefreshThread where
  unionedDestSockets : List SocketAddr
  running : Bool
  latest : List SocketAddr

namespace RefreshThread

/-- The addresses resolved at start-up are published. -/
def start (staticDestSockets : List StaticDest) : RefreshThread where
  unionedDestSockets := staticDestSockets.map Prod.fst
  running := true
  latest := staticDestSockets.map Prod.fst

/-- The most recent addresses after one more round of resolutions. -/
def relatest (staticDestSockets : List StaticDest) (lookup : Lookup) (latest : List SocketAddr) :
    List SocketAddr :=
  (staticDestSockets.zip latest).zipIdx.map fun d =>
    (resolveHostnamePort (lookup d.2) d.1.1.2).elim d.1.2 Prod.fst

/-- One iteration of the loop. -/
def step (port : UInt16) (staticDestSockets : List StaticDest) (t : RefreshThread) :
    RefreshEvent → RefreshThread
  | .fetchSocketTick fetch lookup =>
      if t.running then
        match fetchUnionedDestinations port staticDestSockets fetch lookup with
        | some newSockets =>
            { t with
              unionedDestSockets := newSockets
              latest := relatest staticDestSockets lookup t.latest }
        | none => t
      else t
  | .metricsTick => t
  | .shutdown => { t with running := false }

/-- The thread after some events. -/
def run (port : UInt16) (staticDestSockets : List StaticDest) (events : List RefreshEvent) :
    RefreshThread :=
  events.foldl (step port staticDestSockets) (start staticDestSockets)

theorem run_concat (port : UInt16) (staticDestSockets : List StaticDest)
    (events : List RefreshEvent) (e : RefreshEvent) :
    run port staticDestSockets (events ++ [e]) =
      step port staticDestSockets (run port staticDestSockets events) e := by
  simp [run]

end RefreshThread

/-! ## One refresh -/

section Refresh

variable {port : UInt16} {statics : List StaticDest} {lookup : Lookup} {latest : List SocketAddr}
  {a : SocketAddr}

/-- The static destinations that resolve. -/
theorem mem_resolveStatics : a ∈ resolveStatics statics lookup ↔
    ∃ i d, statics[i]? = some d ∧
      (resolveHostnamePort (lookup i) d.2).map Prod.fst = some a := by
  unfold resolveStatics
  rw [List.mem_filterMap]
  constructor
  · rintro ⟨⟨d, i⟩, hd, ha⟩
    exact ⟨i, d, List.mem_zipIdx_iff_getElem?.mp hd, ha⟩
  · rintro ⟨i, d, hd, ha⟩
    exact ⟨(d, i), List.mem_zipIdx_iff_getElem?.mpr hd, ha⟩

theorem nodup_eraseDups {α : Type} [DecidableEq α] (l : List α) : l.eraseDups.Nodup := by
  induction hn : l.length using Nat.strong_induction_on generalizing l with
  | h n ih =>
      cases l with
      | nil => simp
      | cons x l =>
          rw [List.eraseDups_cons, List.nodup_cons]
          refine ⟨?_, ?_⟩
          · simp
          · refine ih _ ?_ _ rfl
            rw [← hn, List.length_cons]
            exact Nat.lt_succ_of_le (List.length_filter_le _ l)

/-- A most recent address is one that was just resolved, or that of a destination that did not
resolve. -/
theorem mem_relatest : a ∈ RefreshThread.relatest statics lookup latest ↔
    ∃ i d old, statics[i]? = some d ∧ latest[i]? = some old ∧
      a = (resolveHostnamePort (lookup i) d.2).elim old Prod.fst := by
  unfold RefreshThread.relatest
  rw [List.mem_map]
  constructor
  · rintro ⟨⟨⟨d, old⟩, i⟩, hd, rfl⟩
    have hcell := List.mem_zipIdx_iff_getElem?.mp hd
    rw [List.getElem?_zip_eq_some] at hcell
    exact ⟨i, d, old, hcell.1, hcell.2, rfl⟩
  · rintro ⟨i, d, old, hd, hold, rfl⟩
    refine ⟨((d, old), i), List.mem_zipIdx_iff_getElem?.mpr ?_, rfl⟩
    exact List.getElem?_zip_eq_some.mpr ⟨hd, hold⟩

theorem length_relatest (h : latest.length = statics.length) :
    (RefreshThread.relatest statics lookup latest).length = statics.length := by
  simp [RefreshThread.relatest, h]

/-- A destination that did not resolve keeps its most recent address. -/
theorem mem_relatest_of_unresolved {i : Nat} {d : StaticDest} (hd : statics[i]? = some d)
    (hold : latest[i]? = some a) (hnone : resolveHostnamePort (lookup i) d.2 = none) :
    a ∈ RefreshThread.relatest statics lookup latest :=
  mem_relatest.mpr ⟨i, d, a, hd, hold, by rw [hnone]; rfl⟩

/-- An address that just resolved is the latest one. -/
theorem mem_relatest_of_resolved (h : latest.length = statics.length)
    (ha : a ∈ resolveStatics statics lookup) :
    a ∈ RefreshThread.relatest statics lookup latest := by
  rcases mem_resolveStatics.mp ha with ⟨i, d, hd, hresolved⟩
  rcases Option.map_eq_some_iff.mp hresolved with ⟨r, hr, rfl⟩
  have hlt : i < latest.length := h ▸ (List.getElem?_eq_some_iff.mp hd).1
  refine mem_relatest.mpr ⟨i, d, latest[i], hd, List.getElem?_eq_getElem hlt, ?_⟩
  rw [hr]
  rfl

end Refresh

/-! ## Runs -/

/-- Static destinations that do not resolve are in the union all the same. -/
def Covered (port : UInt16) (statics : List StaticDest) (ips : List IpAddr) (lookup : Lookup)
    (latest : List SocketAddr) : Prop :=
  ∀ i d a, statics[i]? = some d → latest[i]? = some a →
    resolveHostnamePort (lookup i) d.2 = none →
    a ∈ discovered port ips ∨ a ∈ resolveStatics statics lookup

open RefreshThread in
/-- No static destination is lost in a run: at every point the published list has the most recent
address of every one of them, after a successful fetch it is the union of these with the discovered
addresses, without duplicates, and a failed fetch leaves it alone. -/
structure KeepsStatics (port : UInt16) (statics : List StaticDest) (events : List RefreshEvent) :
    Prop where
  contains : ∀ earlier later, events = earlier ++ later →
    ∀ a ∈ (run port statics earlier).latest, a ∈ (run port statics earlier).unionedDestSockets
  fetched : ∀ earlier ips lookup later,
    events = earlier ++ RefreshEvent.fetchSocketTick (.ips ips) lookup :: later →
    (run port statics earlier).running = true →
    (run port statics (earlier ++ [.fetchSocketTick (.ips ips) lookup])).unionedDestSockets.Nodup ∧
      ∀ a, a ∈ (run port statics
          (earlier ++ [.fetchSocketTick (.ips ips) lookup])).unionedDestSockets ↔
        a ∈ discovered port ips ∨
          a ∈ (run port statics (earlier ++ [.fetchSocketTick (.ips ips) lookup])).latest
  failed : ∀ earlier fetch lookup later,
    events = earlier ++ RefreshEvent.fetchSocketTick fetch lookup :: later →
    fetch = .httpError ∨ fetch = .badJson →
    (run port statics (earlier ++ [.fetchSocketTick fetch lookup])).unionedDestSockets =
      (run port statics earlier).unionedDestSockets

/-- Whenever a fetch succeeds, every static destination that does not resolve has its most recent
address among the discovered addresses or among those that the other destinations resolve to. -/
def StaticsCovered (port : UInt16) (statics : List StaticDest) (events : List RefreshEvent) :
    Prop :=
  ∀ earlier ips lookup later,
    events = earlier ++ RefreshEvent.fetchSocketTick (.ips ips) lookup :: later →
    (RefreshThread.run port statics earlier).running = true →
    Covered port statics ips lookup (RefreshThread.run port statics earlier).latest

namespace RefreshThread

variable {port : UInt16} {statics : List StaticDest} {t : RefreshThread} {ips : List IpAddr}
  {lookup : Lookup}

/-- A tick with a list of addresses publishes them with the static ones that resolve. -/
theorem step_fetched (hrunning : t.running = true) :
    step port statics t (.fetchSocketTick (.ips ips) lookup) =
      { t with
        unionedDestSockets := (discovered port ips ++ resolveStatics statics lookup).eraseDups
        latest := relatest statics lookup t.latest } := by
  simp [step, hrunning, fetchUnionedDestinations]

/-- A tick without a usable answer changes nothing. -/
theorem step_failed {fetch : Fetch} (h : fetch = .httpError ∨ fetch = .badJson) :
    step port statics t (.fetchSocketTick fetch lookup) = t := by
  rcases h with rfl | rfl <;> simp [step, fetchUnionedDestinations]

/-- A step is a successful refresh, or leaves both lists alone. -/
theorem step_cases (t : RefreshThread) (e : RefreshEvent) :
    (∃ ips lookup, e = .fetchSocketTick (.ips ips) lookup ∧ t.running = true) ∨
      ((step port statics t e).unionedDestSockets = t.unionedDestSockets ∧
        (step port statics t e).latest = t.latest) := by
  cases e with
  | fetchSocketTick fetch lookup =>
      cases hrunning : t.running with
      | false => exact Or.inr (by simp [step, hrunning])
      | true =>
          cases fetch with
          | httpError => exact Or.inr (by simp [step_failed])
          | badJson => exact Or.inr (by simp [step_failed])
          | ips ips => exact Or.inl ⟨ips, lookup, rfl, rfl⟩
  | metricsTick => exact Or.inr ⟨rfl, rfl⟩
  | shutdown => exact Or.inr ⟨rfl, rfl⟩

theorem length_latest (port : UInt16) (statics : List StaticDest) (events : List RefreshEvent) :
    (run port statics events).latest.length = statics.length := by
  induction events using List.reverseRecOn with
  | nil => simp [run, start]
  | append_singleton events e ih =>
      rw [run_concat]
      rcases @step_cases port statics (run port statics events) e with
        ⟨ips, lookup, rfl, hrunning⟩ | ⟨_, hlatest⟩
      · rw [step_fetched hrunning]
        exact length_relatest ih
      · rw [hlatest, ih]

end RefreshThread

open RefreshThread

variable {port : UInt16} {statics : List StaticDest} {events : List RefreshEvent}

/-- What is published after a successful fetch, if the destinations that do not resolve are
covered. -/
theorem published_iff {t : RefreshThread} {ips : List IpAddr} {lookup : Lookup}
    (hlength : t.latest.length = statics.length)
    (hcovered : Covered port statics ips lookup t.latest) (a : SocketAddr) :
    a ∈ discovered port ips ∨ a ∈ resolveStatics statics lookup ↔
      a ∈ discovered port ips ∨ a ∈ relatest statics lookup t.latest := by
  constructor
  · rintro (ha | ha)
    · exact Or.inl ha
    · exact Or.inr (mem_relatest_of_resolved hlength ha)
  · rintro (ha | ha)
    · exact Or.inl ha
    · rcases mem_relatest.mp ha with ⟨i, d, old, hd, hold, rfl⟩
      cases hresolved : resolveHostnamePort (lookup i) d.2 with
      | none => exact hcovered i d old hd hold hresolved
      | some r => exact Or.inr (mem_resolveStatics.mpr ⟨i, d, hd, by rw [hresolved]; rfl⟩)

/-- While the static destinations are covered, every latest address is published. -/
theorem StaticsCovered.contains (h : StaticsCovered port statics events) :
    ∀ earlier later, events = earlier ++ later →
      ∀ a ∈ (run port statics earlier).latest,
        a ∈ (run port statics earlier).unionedDestSockets := by
  intro earlier
  induction earlier using List.reverseRecOn with
  | nil => exact fun _ _ a ha => ha
  | append_singleton earlier e ih =>
      intro later hevents a ha
      have hsplit : events = earlier ++ e :: later := by simpa using hevents
      rw [run_concat] at ha ⊢
      rcases @step_cases port statics (run port statics earlier) e with
        ⟨ips, lookup, rfl, hrunning⟩ | ⟨hsame, hlatest⟩
      · rw [step_fetched hrunning] at ha ⊢
        have hcovered := h earlier ips lookup later hsplit hrunning
        rw [List.mem_eraseDups, List.mem_append]
        exact (published_iff (length_latest port statics earlier) hcovered a).mpr (Or.inr ha)
      · rw [hsame]
        rw [hlatest] at ha
        exact ih _ hsplit a ha

/-- In every run, no static destination is lost if and only if those that do not resolve are
covered whenever a fetch succeeds. -/
theorem keeps_statics_iff (port : UInt16) (statics : List StaticDest)
    (events : List RefreshEvent) :
    KeepsStatics port statics events ↔ StaticsCovered port statics events := by
  constructor
  · intro h earlier ips lookup later hevents hrunning i d a hd hold hnone
    have hmem := h.contains (earlier ++ [.fetchSocketTick (.ips ips) lookup]) later
      (by simp [hevents]) a
    rw [run_concat, step_fetched hrunning, List.mem_eraseDups, List.mem_append] at hmem
    exact hmem (mem_relatest_of_unresolved hd hold hnone)
  · intro h
    refine ⟨h.contains, ?_, ?_⟩
    · intro earlier ips lookup later hevents hrunning
      have hcovered := h earlier ips lookup later hevents hrunning
      rw [run_concat, step_fetched hrunning]
      refine ⟨nodup_eraseDups _, fun a => ?_⟩
      rw [List.mem_eraseDups, List.mem_append]
      exact published_iff (length_latest port statics earlier) hcovered a
    · intro earlier fetch lookup later _ hfailed
      rw [run_concat, step_failed hfailed]

/-- Two destinations resolve at start-up.  At the first tick the fetch succeeds with no address and
the second one does not resolve. -/
def Sample.destIpPorts : List StaticDest :=
  [(⟨.v4 1, 8001⟩, "a:8001"), (⟨.v4 2, 8001⟩, "b:8001")]

def Sample.partialFailure : RefreshEvent :=
  .fetchSocketTick (.ips []) fun _ host => if host = "a:8001" then some [⟨.v4 1, 8001⟩] else none

/-- A destination is lost although its host name resolved before. -/
theorem static_destination_lost :
    (run 9000 Sample.destIpPorts [Sample.partialFailure]).unionedDestSockets = [⟨.v4 1, 8001⟩] ∧
      ¬ KeepsStatics 9000 Sample.destIpPorts [Sample.partialFailure] := by
  refine ⟨by decide, ?_⟩
  intro h
  have hmem := h.contains [Sample.partialFailure] [] rfl ⟨.v4 2, 8001⟩ (by decide)
  exact absurd hmem (by decide)

end ShredstreamProxy
