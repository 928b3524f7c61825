import ShredstreamProxy.Lib.Exec
import ShredstreamProxy.Lib.Segment
import ShredstreamProxy.Lib.KeyedFold
import ShredstreamProxy.Lib.PartialMap
import ShredstreamProxy.Lib.Channel
import ShredstreamProxy.Lib.EventRun
import ShredstreamProxy.Lib.Family
import ShredstreamProxy.Lib.Digits
import ShredstreamProxy.Ledger
import ShredstreamProxy.Deshred.Tracker
import ShredstreamProxy.Deshred.ComparableShred
import ShredstreamProxy.Deshred.ShredInfo
import ShredstreamProxy.Deshred.Reconstruct
import ShredstreamProxy.Slot.State
import ShredstreamProxy.Slot.Invariant
import ShredstreamProxy.Slot.Machine
import ShredstreamProxy.Slot.Refinement
import ShredstreamProxy.Slot.Run
import ShredstreamProxy.Slot.Simulation
import ShredstreamProxy.Slot.Attempt
import ShredstreamProxy.Properties.SegmentSearch
import ShredstreamProxy.Properties.Emission
import ShredstreamProxy.Properties.Representation
import ShredstreamProxy.Properties.Pruning
import ShredstreamProxy.Properties.Isolation
import ShredstreamProxy.Properties.OrderIndependence
import ShredstreamProxy.Properties.Dropped
import ShredstreamProxy.Properties.Rejected
import ShredstreamProxy.Properties.Buckets
import ShredstreamProxy.Properties.RecoveredCount
import ShredstreamProxy.Properties.Provenance
import ShredstreamProxy.Properties.ServiceTotals
import ShredstreamProxy.Properties.MissedSets
import ShredstreamProxy.Block.Basic
import ShredstreamProxy.Block.Completeness
import ShredstreamProxy.Block.Threshold
import ShredstreamProxy.Metrics.Counters
import ShredstreamProxy.Metrics.Heartbeat
import ShredstreamProxy.Metrics.Restart
import ShredstreamProxy.Metrics.Conservation
import ShredstreamProxy.Metrics.HeartbeatEvents
import ShredstreamProxy.Metrics.HeartbeatTotals
import ShredstreamProxy.Service.Entries
import ShredstreamProxy.Service.Delivery
import ShredstreamProxy.Protos
import ShredstreamProxy.Forwarder.Forward
import ShredstreamProxy.Forwarder.Accounting
import ShredstreamProxy.Forwarder.TraceShreds
import ShredstreamProxy.Forwarder.Destinations
import ShredstreamProxy.Shutdown.Protocol
import ShredstreamProxy.Shutdown.Termination
import ShredstreamProxy.Proxy.Threads
import ShredstreamProxy.Proxy.Steps
import ShredstreamProxy.Proxy.Batches
import ShredstreamProxy.Proxy.Published
import ShredstreamProxy.Proxy.Reconstruction
import ShredstreamProxy.Proxy.Totals
import ShredstreamProxy.Proxy.Delivered
import ShredstreamProxy.Multicast.Address
import ShredstreamProxy.Multicast.Config
import ShredstreamProxy.Shutdown.Refinement
import ShredstreamProxy.Proxy.Start
import ShredstreamProxy.Auth.TokenRefresh
import ShredstreamProxy.Auth.Connections
