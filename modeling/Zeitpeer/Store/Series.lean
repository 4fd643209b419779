import Zeitpeer.Config

/-!
# Time series and their writers

The keys of the sorted sets that the node writes, and one call of `ts_add`. A writer discards
the result of the call, so a write is described by its arguments alone.
-/

namespace Zeitpeer

/-- The last part of a `ts:peer:{id}:…` key. -/
inductive PeerMetric where
  | offset | delay | jitter | quality | timeouts | serviceLatency
  deriving DecidableEq, Repr

/-- The last part of a `ts:ntp:{id}:…` key. -/
inductive NtpMetric where
  | offset | delay | jitter | quality | driftPpm | remoteTime | systemDelta | offsetVsMean
  | pingMs
  deriving DecidableEq, Repr

inductive FusedMetric where
  | offset | delay | ewma | driftPpm
  deriving DecidableEq, Repr

inductive PhcMetric where
  | systemOffset | fusedDelta
  deriving DecidableEq, Repr

inductive SeriesKey where
  | peer (id : UInt32) (metric : PeerMetric)
  | ntp (id : UInt32) (metric : NtpMetric)
  | fused (metric : FusedMetric)
  | phc (metric : PhcMetric)
  deriving DecidableEq, Repr

/-- The arguments of one `ts_add` call. -/
structure TsAdd where
  key : SeriesKey
  tsNs : UInt64
  val : F64
  windowNs : UInt64
  deriving DecidableEq, Repr

end Zeitpeer
