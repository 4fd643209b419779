import Zeitpeer.Config
import Zeitpeer.Framework.Robust
import Mathlib.Data.List.GetD
import Mathlib.Data.Rat.Floor
import Mathlib.Tactic.NormNum
import Mathlib.Tactic.Positivity

/-!
# Fusing the sources of one iteration

A source's readings become a sample of three medians. The samples with the best scores are
sorted by offset, trimmed on both sides and averaged with weights that fall with the jitter,
and the mean drives an exponential average whose gain grows with the total weight.
-/

namespace Zeitpeer

open Framework

structure WeightedEwma where
  lambda : F64
  state : F64 := 0
  init : Bool := false
  deriving DecidableEq, Repr

def WeightedEwma.new (lambda : F64) : WeightedEwma := { lambda := clamp 0 1 lambda }

/-- `push` returns the smoothed value with the updated average. -/
def WeightedEwma.push (e : WeightedEwma) (value weight : F64) : F64 × WeightedEwma :=
  let alpha := clamp 0 1 (e.lambda * (1 + weight / 4))
  let state := if e.init then alpha * value + (1 - alpha) * e.state else value
  (state, { e with state := state, init := true })

/-- A source's medians; `from_series` raises every weight to a positive floor. -/
structure PeerSample where
  peerId : UInt32
  peerWeight : F64
  offsetMedianNs : F64
  delayMedianNs : F64
  jitterMedianNs : F64
  weight_floor : 1 / 100 ≤ peerWeight
  deriving DecidableEq

structure TrimmedStats where
  meanOffsetNs : F64
  meanDelayNs : F64
  totalWeight : F64
  kept : List PeerSample
  deriving DecidableEq

/-- `f64::EPSILON`. -/
def F64_EPSILON : F64 := 1 / 2 ^ 52

def robustMedian (values : List F64) : Option F64 :=
  if values.isEmpty then none
  else
    let sorted := sortBy id values
    let mid := sorted.length / 2
    if sorted.length % 2 = 0 then some ((sorted.getD (mid - 1) 0 + sorted.getD mid 0) / 2)
    else some (sorted.getD mid 0)

def PeerSample.fromSeries (peerId : UInt32) (weight : F64)
    (offsets delays jitters : List (UInt64 × F64)) : PeerSample :=
  { peerId := peerId
    peerWeight := max weight (1 / 100)
    offsetMedianNs := (robustMedian (offsets.map Prod.snd)).getD 0
    delayMedianNs := (robustMedian (delays.map Prod.snd)).getD 0
    jitterMedianNs := |(robustMedian (jitters.map Prod.snd)).getD 0|
    weight_floor := le_max_right _ _ }

def peerScore (sample : PeerSample) : F64 := |sample.delayMedianNs| + |sample.jitterMedianNs|

/-- The number of samples that a quantile keeps; the cast from `f64` saturates at zero. -/
def keepCount (n : Nat) (quantile : F64) : Nat := max ⌈(n : F64) * clamp 0 1 quantile⌉.toNat 1

def selectBestPeers (samples : List PeerSample) (quantile : F64) : List PeerSample :=
  if samples.isEmpty then []
  else (sortBy peerScore samples).take (keepCount samples.length quantile)

/-- The number of samples trimmed on each side, by a product as the machine takes it or an exact
one; the cast from `f64` saturates at zero. -/
def trimCount (times : Nat → F64 → F64) (n : Nat) (trimRatio : F64) : Nat :=
  ⌊times n trimRatio⌋.toNat

/-- The weight of a kept sample in the means. -/
def PeerSample.fusionWeight (s : PeerSample) : F64 := s.peerWeight / (1 + |s.jitterMedianNs| / 1000)

/-- The weighted mean of a value over the kept samples, with the plain mean as the source's
way out of a total weight of zero. -/
def keptMean (kept : List PeerSample) (value : PeerSample → F64) : F64 :=
  let total := (kept.map PeerSample.fusionWeight).sum
  if 0 < total then (kept.map fun s => s.fusionWeight * value s).sum / total
  else (kept.map value).sum / (max kept.length 1 : Nat)

/-- `from_samples`, with means over exact rationals; slicing past the end is a panic. -/
def TrimmedStats.fromSamples (times : Nat → F64 → F64) (samples : List PeerSample)
    (trimRatio : F64) : Option TrimmedStats :=
  let subset := sortBy PeerSample.offsetMedianNs samples
  let n := subset.length
  let trim := trimCount times n trimRatio
  let start := min trim n
  let stop := max (n - trim) (start + 1)
  if n < stop then none
  else
    let kept := (subset.take stop).drop start
    some
      { meanOffsetNs := keptMean kept PeerSample.offsetMedianNs
        meanDelayNs := keptMean kept PeerSample.delayMedianNs
        totalWeight := max (kept.map PeerSample.fusionWeight).sum F64_EPSILON
        kept := kept }

/-- A clock offset that one iteration of the fusion loop derives. -/
structure Fused where
  stats : TrimmedStats
  smoothed : F64
  deriving DecidableEq

/-- The part of `run_fusion_iteration` between collecting the samples and publishing, over exact
rationals: nothing to publish, a fused offset with the updated average, or a panic. -/
def fuseSamples (filter : FilterCfg) (ewma : WeightedEwma) (samples : List PeerSample) :
    Option (Option Fused × WeightedEwma) :=
  if samples.isEmpty then some (none, ewma)
  else
    let best := selectBestPeers samples filter.bestQuantile
    if best.isEmpty then some (none, ewma)
    else
      match TrimmedStats.fromSamples exactTimes best filter.trimRatio with
      | none => none
      | some trimmed =>
        if trimmed.kept.isEmpty then some (none, ewma)
        else
          let pushed := ewma.push trimmed.meanOffsetNs trimmed.totalWeight
          some (some ⟨trimmed, pushed.1⟩, pushed.2)

section Bounds

variable {low high : F64}

theorem robustMedian_between {values : List F64} (hne : values ≠ [])
    (hvalues : ∀ v ∈ values, low ≤ v ∧ v ≤ high) :
    ∃ m, robustMedian values = some m ∧ low ≤ m ∧ m ≤ high := by
  have hlen : 0 < (sortBy id values).length := by
    rw [length_sortBy]
    exact List.length_pos_of_ne_nil hne
  have hget : ∀ i < (sortBy id values).length,
      low ≤ (sortBy id values).getD i 0 ∧ (sortBy id values).getD i 0 ≤ high := by
    intro i hi
    rw [List.getD_eq_getElem _ _ hi]
    exact hvalues _ (mem_sortBy.mp (List.getElem_mem hi))
  have hempty : values.isEmpty = false := List.isEmpty_eq_false_iff.mpr hne
  simp only [robustMedian, hempty, Bool.false_eq_true, if_false]
  by_cases heven : (sortBy id values).length % 2 = 0
  · rw [if_pos heven]
    obtain ⟨hlow, hhigh⟩ := hget ((sortBy id values).length / 2 - 1) (by omega)
    obtain ⟨hlow', hhigh'⟩ := hget ((sortBy id values).length / 2) (by omega)
    exact ⟨_, rfl, by linarith, by linarith⟩
  · rw [if_neg heven]
    exact ⟨_, rfl, hget _ (by omega)⟩

theorem mem_of_mem_selectBestPeers {samples : List PeerSample} {quantile : F64} {s : PeerSample}
    (hs : s ∈ selectBestPeers samples quantile) : s ∈ samples := by
  unfold selectBestPeers at hs
  split at hs
  · exact absurd hs List.not_mem_nil
  · exact mem_sortBy.mp (List.mem_of_mem_take hs)

/-- A quantile never selects nothing out of something. -/
theorem selectBestPeers_ne_nil {samples : List PeerSample} (quantile : F64)
    (hne : samples ≠ []) : selectBestPeers samples quantile ≠ [] := by
  have hempty : samples.isEmpty = false := List.isEmpty_eq_false_iff.mpr hne
  have hkeep : 1 ≤ keepCount samples.length quantile := le_max_right _ _
  have hpos := List.length_pos_of_ne_nil hne
  rw [selectBestPeers, hempty]
  apply List.ne_nil_of_length_pos
  simp only [Bool.false_eq_true, if_false, List.length_take, length_sortBy]
  omega

private theorem PeerSample.fusionWeight_pos (s : PeerSample) : 0 < s.fusionWeight := by
  have hweight : 0 < s.peerWeight := lt_of_lt_of_le (by norm_num) s.weight_floor
  have hjitter : 0 ≤ |s.jitterMedianNs| / 1000 := by positivity
  exact div_pos hweight (by linarith)

theorem fusionWeight_sum_pos {kept : List PeerSample} (hne : kept ≠ []) :
    0 < (kept.map PeerSample.fusionWeight).sum := by
  apply List.sum_pos
  · intro w hw
    obtain ⟨s, _, rfl⟩ := List.mem_map.mp hw
    exact s.fusionWeight_pos
  · simpa using hne

/-- The plain mean is never taken: some weight is positive. -/
theorem keptMean_between {kept : List PeerSample} {value : PeerSample → F64} (hne : kept ≠ [])
    (hvalue : ∀ s ∈ kept, low ≤ value s ∧ value s ≤ high) :
    low ≤ keptMean kept value ∧ keptMean kept value ≤ high := by
  have hpos := fusionWeight_sum_pos hne
  simp only [keptMean, if_pos hpos]
  exact weightedMean_between (fun s _ => s.fusionWeight_pos.le) hpos hvalue

/-- What `from_samples` keeps is never empty and is part of what it was given. -/
theorem TrimmedStats.fromSamples_kept {times : Nat → F64 → F64} {samples : List PeerSample}
    {trimRatio : F64} {stats : TrimmedStats}
    (h : fromSamples times samples trimRatio = some stats) :
    stats.kept ≠ [] ∧ (∀ s ∈ stats.kept, s ∈ samples) ∧
      stats.meanOffsetNs = keptMean stats.kept PeerSample.offsetMedianNs ∧
      stats.meanDelayNs = keptMean stats.kept PeerSample.delayMedianNs := by
  simp only [fromSamples] at h
  split at h
  · contradiction
  · rename_i hstop
    obtain rfl := Option.some.inj h
    refine ⟨?_, ?_, rfl, rfl⟩
    · apply List.ne_nil_of_length_pos
      simp only [List.length_drop, List.length_take]
      omega
    · intro s hs
      exact mem_sortBy.mp (List.mem_of_mem_take (List.mem_of_mem_drop hs))

theorem two_mul_trimCount_lt {n : Nat} {trimRatio : F64} (hn : 0 < n) (hr : trimRatio < 1 / 2) :
    2 * trimCount exactTimes n trimRatio < n := by
  have hpos : (0 : F64) < n := by exact_mod_cast hn
  by_cases hneg : ⌊(n : F64) * trimRatio⌋ < 0
  · rw [trimCount, exactTimes, Int.toNat_of_nonpos hneg.le]
    omega
  · have hfloor : (⌊(n : F64) * trimRatio⌋ : F64) ≤ n * trimRatio := Int.floor_le _
    have hprod : (n : F64) * trimRatio < n * (1 / 2) := mul_lt_mul_of_pos_left hr hpos
    have hhalf : ((2 * ⌊(n : F64) * trimRatio⌋ : Int) : F64) < (n : Int) := by
      push_cast
      linarith
    have hint : 2 * ⌊(n : F64) * trimRatio⌋ < (n : Int) := by exact_mod_cast hhalf
    rw [trimCount, exactTimes]
    omega

/-- Trimming less than half on each side never panics and keeps the middle. -/
theorem TrimmedStats.fromSamples_trimmed {samples : List PeerSample} {trimRatio : F64}
    (hne : samples ≠ []) (hr : trimRatio < 1 / 2) :
    ∃ stats, fromSamples exactTimes samples trimRatio = some stats ∧
      stats.kept = trimmed (trimCount exactTimes samples.length trimRatio)
        (sortBy PeerSample.offsetMedianNs samples) := by
  have htrim := two_mul_trimCount_lt (List.length_pos_of_ne_nil hne) hr
  have hstart : min (trimCount exactTimes samples.length trimRatio) samples.length =
      trimCount exactTimes samples.length trimRatio := by omega
  have hstop : max (samples.length - trimCount exactTimes samples.length trimRatio)
      (trimCount exactTimes samples.length trimRatio + 1) =
      samples.length - trimCount exactTimes samples.length trimRatio := by omega
  have hfits : ¬ samples.length < samples.length -
      trimCount exactTimes samples.length trimRatio := by omega
  simp only [fromSamples, length_sortBy, hstart, hstop, if_neg hfits]
  exact ⟨_, rfl, by rw [trimmed, length_sortBy]⟩

/-- The average stays in an interval that holds its state and the pushed value. -/
theorem WeightedEwma.push_between {e : WeightedEwma} {value weight : F64}
    (hstate : e.init = true → low ≤ e.state ∧ e.state ≤ high)
    (hvalue : low ≤ value ∧ value ≤ high) :
    (low ≤ (e.push value weight).1 ∧ (e.push value weight).1 ≤ high) ∧
      (e.push value weight).2.init = true ∧
      (e.push value weight).2.state = (e.push value weight).1 := by
  refine ⟨?_, rfl, rfl⟩
  by_cases hinit : e.init = true
  · have hgain := clamp_between zero_le_one (e.lambda * (1 + weight / 4))
    simp only [push, if_pos hinit]
    exact blend_between hgain.1 hgain.2 hvalue (hstate hinit)
  · simp only [push, if_neg hinit]
    exact hvalue

end Bounds

/-- What `fuseSamples` can do: leave the average alone, for want of samples, or push the mean
of the trimmed selection. -/
theorem fuseSamples_cases {filter : FilterCfg} {ewma ewma' : WeightedEwma}
    {samples : List PeerSample} {out : Option Fused}
    (h : fuseSamples filter ewma samples = some (out, ewma')) :
    (samples = [] ∧ out = none ∧ ewma' = ewma) ∨
      ∃ stats, samples ≠ [] ∧
        TrimmedStats.fromSamples exactTimes (selectBestPeers samples filter.bestQuantile)
          filter.trimRatio = some stats ∧
        out = some ⟨stats, (ewma.push stats.meanOffsetNs stats.totalWeight).1⟩ ∧
        ewma' = (ewma.push stats.meanOffsetNs stats.totalWeight).2 := by
  by_cases hne : samples = []
  · left
    rw [fuseSamples, hne] at h
    obtain ⟨rfl, rfl⟩ := Prod.mk.inj (Option.some.inj h)
    exact ⟨hne, rfl, rfl⟩
  · right
    have hbest := selectBestPeers_ne_nil filter.bestQuantile hne
    rw [fuseSamples, List.isEmpty_eq_false_iff.mpr hne] at h
    simp only [Bool.false_eq_true, if_false, List.isEmpty_eq_false_iff.mpr hbest] at h
    split at h
    · contradiction
    · rename_i stats hstats
      have hkept := (TrimmedStats.fromSamples_kept hstats).1
      rw [List.isEmpty_eq_false_iff.mpr hkept] at h
      obtain ⟨rfl, rfl⟩ := Prod.mk.inj (Option.some.inj h)
      exact ⟨stats, hne, hstats, rfl, rfl⟩

/-- With less than half trimmed on each side an iteration never panics, and it has a fused
offset exactly if it has a sample. -/
theorem fuseSamples_some {filter : FilterCfg} (ewma : WeightedEwma) (samples : List PeerSample)
    (hr : filter.trimRatio < 1 / 2) :
    ∃ out ewma', fuseSamples filter ewma samples = some (out, ewma') ∧
      (out.isSome = true ↔ samples ≠ []) := by
  by_cases hne : samples = []
  · exact ⟨none, ewma, by rw [fuseSamples, hne]; rfl, by simp [hne]⟩
  · have hbest := selectBestPeers_ne_nil filter.bestQuantile hne
    obtain ⟨stats, hstats, _⟩ := TrimmedStats.fromSamples_trimmed hbest hr
    have hkept := (TrimmedStats.fromSamples_kept hstats).1
    refine ⟨some ⟨stats, (ewma.push stats.meanOffsetNs stats.totalWeight).1⟩,
      (ewma.push stats.meanOffsetNs stats.totalWeight).2, ?_, by simp [hne]⟩
    rw [fuseSamples, List.isEmpty_eq_false_iff.mpr hne]
    simp only [Bool.false_eq_true, if_false, List.isEmpty_eq_false_iff.mpr hbest, hstats,
      List.isEmpty_eq_false_iff.mpr hkept]

/-- At most as many selected samples are faulty as are trimmed on one side; the others have
their offsets in the interval. -/
def Trustworthy (filter : FilterCfg) (low high : F64) (samples : List PeerSample) : Prop :=
  let selected := selectBestPeers samples filter.bestQuantile
  ∃ faulty : PeerSample → Bool,
    selected.countP faulty ≤ trimCount exactTimes selected.length filter.trimRatio ∧
    ∀ s ∈ selected, faulty s = false → low ≤ s.offsetMedianNs ∧ s.offsetMedianNs ≤ high

/-- The mean of a trustworthy iteration is in the interval, wherever the faulty samples are. -/
theorem Trustworthy.mean_between {filter : FilterCfg} {low high : F64}
    {samples : List PeerSample} {stats : TrimmedStats} (hr : filter.trimRatio < 1 / 2)
    (htrust : Trustworthy filter low high samples) (hne : samples ≠ [])
    (hstats : TrimmedStats.fromSamples exactTimes (selectBestPeers samples filter.bestQuantile)
      filter.trimRatio = some stats) :
    low ≤ stats.meanOffsetNs ∧ stats.meanOffsetNs ≤ high := by
  obtain ⟨faulty, hfew, hgood⟩ := htrust
  have hbest := selectBestPeers_ne_nil filter.bestQuantile hne
  obtain ⟨stats', hstats', hmiddle⟩ := TrimmedStats.fromSamples_trimmed hbest hr
  rw [hstats] at hstats'
  obtain rfl := Option.some.inj hstats'
  obtain ⟨hkept, _, hmean, _⟩ := TrimmedStats.fromSamples_kept hstats
  rw [hmean]
  apply keptMean_between hkept
  intro s hs
  rw [hmiddle] at hs
  have hsame := (sortBy_perm PeerSample.offsetMedianNs
    (selectBestPeers samples filter.bestQuantile)).countP_eq faulty
  exact between_of_mem_trimmed (pairwise_sortBy _ _) (hsame.trans_le hfew)
    (fun a ha hok => hgood a (mem_sortBy.mp ha) hok) hs

end Zeitpeer
