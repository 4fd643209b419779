import Zeitpeer.Framework.Machine
import Zeitpeer.Framework.Codec
import Zeitpeer.Framework.Table
import Zeitpeer.Config
import Zeitpeer.Store.Series
import Zeitpeer.Time.Calc
import Zeitpeer.Net.Proto
import Zeitpeer.Net.Node
import Zeitpeer.Net.Wire
import Zeitpeer.Net.Ledger
import Zeitpeer.Net.Draws
import Zeitpeer.Net.Provenance
import Zeitpeer.Net.Outcomes
import Zeitpeer.Net.Conservation
import Zeitpeer.Net.Timing
import Zeitpeer.Net.Replies
import Zeitpeer.Framework.Ensemble
import Zeitpeer.Framework.Interference
import Zeitpeer.Net.Network
import Zeitpeer.Framework.Robust
import Zeitpeer.Framework.Blend
import Zeitpeer.Framework.Cut
import Zeitpeer.Time.Fuse
import Zeitpeer.Time.Trimming
import Zeitpeer.Time.Smoothing
import Zeitpeer.Time.Consensus
import Zeitpeer.Time.Median
import Zeitpeer.Phc.Reader
import Zeitpeer.Store.Redis
import Zeitpeer.Framework.Suffix
import Zeitpeer.Store.Recent
import Zeitpeer.Store.Shared
import Zeitpeer.Time.Slew
import Zeitpeer.Net.Fusion
import Zeitpeer.Telemetry.Handlers
import Zeitpeer.Net.Resilience
import Zeitpeer.Net.Iteration
import Zeitpeer.Net.Ntp
import Zeitpeer.Net.Poller
import Zeitpeer.Net.Polls
import Zeitpeer.Framework.LeastSquares
import Zeitpeer.Framework.Ghost
import Zeitpeer.Net.Clocking
import Zeitpeer.Net.Drift
import Zeitpeer.Net.Daemon
import Zeitpeer.Net.Writers
import Zeitpeer.Net.Identity
import Zeitpeer.Net.Evidence
import Zeitpeer.Net.Discipline
import Zeitpeer.Net.Freshness
import Zeitpeer.Net.Rows
import Zeitpeer.Net.Torn
import Zeitpeer.Net.Site
import Zeitpeer.Net.Keys
import Zeitpeer.Net.Sharing
import Zeitpeer.Time.Shift
import Zeitpeer.Net.Shifted
import Zeitpeer.Net.Windows
import Zeitpeer.Phc.Descriptor
import Zeitpeer.Framework.SortedSet
import Zeitpeer.Store.Members
import Zeitpeer.Telemetry.Metrics
import Zeitpeer.Net.Scrapes
import Zeitpeer.Net.Atomicity
import Zeitpeer.Framework.Interpolation
import Zeitpeer.Telemetry.Quantiles
import Zeitpeer.Framework.Exposition
import Zeitpeer.Telemetry.Exposition
import Zeitpeer.Net.Summaries
import Zeitpeer.Net.Leftovers
import Zeitpeer.Net.Comparison
import Zeitpeer.Net.Health
import Zeitpeer.Framework.Account
import Zeitpeer.Net.Load
import Zeitpeer.Net.Memory
import Zeitpeer.Framework.History
import Zeitpeer.Net.History
import Zeitpeer.Framework.Replay
import Zeitpeer.Store.Log
import Zeitpeer.Net.Log
import Zeitpeer.Net.Band
import Zeitpeer.Framework.Projection
import Zeitpeer.Net.Federation
import Zeitpeer.Framework.Rates
import Zeitpeer.Net.Rates
import Zeitpeer.Framework.Excess
import Zeitpeer.Net.Recovery
import Zeitpeer.Telemetry.Body
import Zeitpeer.Framework.Activity
import Zeitpeer.Net.Activities
import Zeitpeer.Framework.Contract
import Zeitpeer.Store.Ranges
import Zeitpeer.Net.Ranges
import Zeitpeer.Framework.Retention
import Zeitpeer.Store.Commands
