import ShredstreamProxy.Ledger

/-!
# Messages and addresses

The protocol messages that the proxy decodes and the network addresses it keeps.  Converting a
timestamp to the time of the system may fail; the conversion is a parameter wherever it is used.

Main definitions:

- {lit}`Timestamp` and {lit}`SystemTime`: points in time, as sent and as used.
- {lit}`TraceShred` and {lit}`Token`: the messages, as far as the proxy looks into them.
- {lit}`SocketAddr`: the address of a destination.
-/

namespace ShredstreamProxy

/-- A point in time as messages carry it. -/
structure Timestamp where
  seconds : Int64
  nanos : Int32
deriving DecidableEq

/-- A point in time of the system, in nanoseconds since the epoch. -/
abbrev SystemTime := Int

/-- A packet that traces the latency between instances. -/
structure TraceShred where
  createdAt : Option Timestamp
deriving DecidableEq

/-- A token of the auth service. -/
structure Token where
  value : String
  expiresAtUtc : Option Timestamp
deriving DecidableEq

inductive IpAddr where
  | v4 (addr : BitVec 32)
  | v6 (addr : BitVec 128)
deriving DecidableEq

structure SocketAddr where
  ip : IpAddr
  port : UInt16
deriving DecidableEq

end ShredstreamProxy
