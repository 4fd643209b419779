import Mathlib.Data.Rat.Defs
import Zeitpeer.Framework.Rounding

/-!
# Node configuration

The values that `load` reads and `ensure_defaults` completes. Floating-point settings and
readings are finite. Their sums, products and quotients are read over exact rationals except
where a function rounds them by name.
-/

namespace Zeitpeer

open Framework

/-- A finite `f64`, with exact arithmetic. -/
abbrev F64 := Rat

/-- The nearest `f64` with an exponent in range. -/
def F64.round (x : Rat) : F64 := ratToBits 53 x

/-- `n as f64` for a signed integer. -/
def F64.ofInt (n : Int) : F64 := F64.round n

/-- `(n as f64) * r`, rounded as the machine does. -/
def F64.times (n : Nat) (r : F64) : F64 := F64.round (F64.ofInt n * r)

/-- The same product over exact rationals. -/
def exactTimes (n : Nat) (r : F64) : F64 := n * r

/-- An integer of at most 53 bits is an `f64`. -/
theorem F64.ofInt_of_lt {n : Int} (h : |n| < 2 ^ 53) : F64.ofInt n = n := ratToBits_intCast h

theorem F64.abs_ofInt_le {n : Int} {k : Nat} (h : |n| ≤ 2 ^ k) : |F64.ofInt n| ≤ 2 ^ k := by
  have hcast : |(n : Rat)| ≤ 2 ^ (k : Int) := by exact_mod_cast h
  have hround := abs_ratToBits_le (by decide : 0 < 53) hcast
  rwa [zpow_natCast] at hround

theorem F64.ofInt_nonneg {n : Int} (h : 0 ≤ n) : 0 ≤ F64.ofInt n :=
  ratToBits_nonneg 53 (by exact_mod_cast h)

structure PeerEntry where
  id : UInt32
  ip : String
  port : UInt16
  weight : Option F64 := none
  deriving DecidableEq, Repr

structure SamplingCfg where
  intervalMs : UInt64
  windowSec : UInt64
  burst : Option UInt32 := none
  deriving DecidableEq, Repr

structure FilterCfg where
  lambda : F64
  trimRatio : F64
  bestQuantile : F64
  minSamplesPerPeer : UInt32
  deriving DecidableEq, Repr

structure ModeCfg where
  observerOnly : Bool := false
  controlEnable : Bool := false
  deriving DecidableEq, Repr

structure NtpSource where
  id : UInt32
  host : String
  port : Option UInt16 := none
  weight : Option F64 := none
  pollIntervalMs : Option UInt64 := none
  timeoutMs : Option UInt64 := none
  «alias» : Option String := none
  deriving DecidableEq, Repr

structure Config where
  nodeId : UInt32
  phcDevice : Option String
  sampling : SamplingCfg
  filter : FilterCfg
  peers : List PeerEntry := []
  mode : ModeCfg := {}
  ntpSources : List NtpSource := []
  deriving DecidableEq, Repr

def defaultNtpSources : List NtpSource :=
  [{ id := 9101, host := "time.google.com", weight := some (15 / 100),
     pollIntervalMs := some 2000, timeoutMs := some 1200, «alias» := some "google" },
   { id := 9102, host := "time.cloudflare.com", weight := some (1 / 10),
     pollIntervalMs := some 2500, timeoutMs := some 1500, «alias» := some "cloudflare" },
   { id := 9103, host := "pool.ntp.org", weight := some (1 / 10),
     pollIntervalMs := some 3000, timeoutMs := some 1500, «alias» := some "pool" },
   { id := 9104, host := "0.pool.ntp.org", weight := some (1 / 10),
     pollIntervalMs := some 3000, timeoutMs := some 1500, «alias» := some "pool-0" },
   { id := 9105, host := "1.pool.ntp.org", weight := some (1 / 10),
     pollIntervalMs := some 3000, timeoutMs := some 1500, «alias» := some "pool-1" },
   { id := 9106, host := "time.nist.gov", weight := some (8 / 100),
     pollIntervalMs := some 4000, timeoutMs := some 2000, «alias» := some "nist" },
   { id := 9107, host := "time.windows.com", weight := some (8 / 100),
     pollIntervalMs := some 4000, timeoutMs := some 2000, «alias» := some "windows" },
   { id := 9108, host := "ntp.ubuntu.com", weight := some (8 / 100),
     pollIntervalMs := some 3500, timeoutMs := some 2000, «alias» := some "ubuntu" },
   { id := 9109, host := "time.apple.com", weight := some (8 / 100),
     pollIntervalMs := some 3500, timeoutMs := some 2000, «alias» := some "apple" },
   { id := 9110, host := "time1.google.com", weight := some (12 / 100),
     pollIntervalMs := some 2200, timeoutMs := some 1200, «alias» := some "google-1" }]

/-- `ensure_defaults`: without a clock device and without sources the public set is used. -/
def ensureDefaults (cfg : Config) : Config :=
  if cfg.phcDevice.isNone && cfg.ntpSources.isEmpty then
    { cfg with ntpSources := defaultNtpSources }
  else cfg

/-- The node's window in nanoseconds. The product wraps as release arithmetic does. -/
def Config.windowNs (cfg : Config) : UInt64 := cfg.sampling.windowSec * 1000000000

end Zeitpeer
