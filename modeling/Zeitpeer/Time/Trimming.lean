import Zeitpeer.Time.Fuse

/-!
# What trimming leaves

Of the samples sorted by offset `from_samples` keeps a slice. Its ends are corrected so that one
sample is left, but from a ratio of one half on the correction keeps the lower end of the slice
where it is, and the slice moves to the upper end of the samples and then beyond it.
-/

namespace Zeitpeer

open Framework

/-- `start` of the kept slice. -/
def trimStart (times : Nat → F64 → F64) (n : Nat) (trimRatio : F64) : Nat :=
  min (trimCount times n trimRatio) n

/-- `end` of the kept slice. -/
def trimEnd (times : Nat → F64 → F64) (n : Nat) (trimRatio : F64) : Nat :=
  max (n - trimCount times n trimRatio) (trimStart times n trimRatio + 1)

/-- `subset[start..end]`. -/
def keptSlice (times : Nat → F64 → F64) (samples : List PeerSample) (trimRatio : F64) :
    List PeerSample :=
  ((sortBy PeerSample.offsetMedianNs samples).take (trimEnd times samples.length trimRatio)).drop
    (trimStart times samples.length trimRatio)

variable {times : Nat → F64 → F64} {samples : List PeerSample} {trimRatio : F64}

private theorem TrimmedStats.fromSamples_kept_eq :
    (fromSamples times samples trimRatio).map TrimmedStats.kept =
      if samples.length < trimEnd times samples.length trimRatio then none
      else some (keptSlice times samples trimRatio) := by
  simp only [fromSamples, length_sortBy]
  rw [apply_ite (Option.map TrimmedStats.kept)]
  rfl

private theorem TrimmedStats.fromSamples_isSome_iff :
    (fromSamples times samples trimRatio).isSome = true ↔
      trimEnd times samples.length trimRatio ≤ samples.length := by
  rw [← Option.isSome_map (f := TrimmedStats.kept), fromSamples_kept_eq]
  by_cases hlong : samples.length < trimEnd times samples.length trimRatio
  · simp [hlong]
  · simpa [hlong] using Nat.le_of_not_lt hlong

/-- The slice is in bounds and is what is kept, and of some samples it keeps at least one and drops
as many at the low end as at the high end, up to one; so it does not keep an extreme sample alone
where there are others than the two extremes. -/
structure CentralTrim (samples : List PeerSample) (trimRatio : F64) : Prop where
  in_bounds : (TrimmedStats.fromSamples F64.times samples trimRatio).map TrimmedStats.kept =
    some (keptSlice F64.times samples trimRatio)
  kept : samples ≠ [] →
    trimStart F64.times samples.length trimRatio < trimEnd F64.times samples.length trimRatio ∧
      trimEnd F64.times samples.length trimRatio ≤ samples.length
  low : samples ≠ [] → trimStart F64.times samples.length trimRatio ≤
    samples.length - trimEnd F64.times samples.length trimRatio + 1
  high : samples ≠ [] → samples.length - trimEnd F64.times samples.length trimRatio ≤
    trimStart F64.times samples.length trimRatio + 1
  inner : 2 < samples.length → trimEnd F64.times samples.length trimRatio =
      trimStart F64.times samples.length trimRatio + 1 →
    0 < trimStart F64.times samples.length trimRatio ∧
      trimEnd F64.times samples.length trimRatio < samples.length

private theorem trimCount_le_iff {n m : Nat} :
    trimCount times n trimRatio ≤ m ↔ times n trimRatio < m + 1 := by
  have hfloor : ⌊times n trimRatio⌋ < (m : Int) + 1 ↔ times n trimRatio < m + 1 := by
    rw [Int.floor_lt]
    push_cast
    exact Iff.rfl
  rw [trimCount, ← hfloor]
  omega

private theorem centralTrim_of_le (hne : samples ≠ [])
    (hhalf : 2 * trimCount F64.times samples.length trimRatio ≤ samples.length) :
    CentralTrim samples trimRatio := by
  have hpos := List.length_pos_of_ne_nil hne
  have hstart : trimStart F64.times samples.length trimRatio =
      trimCount F64.times samples.length trimRatio := Nat.min_eq_left (by omega)
  have hstop : trimEnd F64.times samples.length trimRatio =
      max (samples.length - trimCount F64.times samples.length trimRatio)
        (trimCount F64.times samples.length trimRatio + 1) := by
    rw [trimEnd, hstart]
  constructor
  · rw [TrimmedStats.fromSamples_kept_eq, if_neg (by omega)]
  all_goals
    rw [hstop, hstart]
    intros
    omega

private theorem CentralTrim.le (h : CentralTrim samples trimRatio) :
    samples ≠ [] ∧ 2 * trimCount F64.times samples.length trimRatio ≤ samples.length := by
  have hsome : (TrimmedStats.fromSamples F64.times samples trimRatio).isSome = true := by
    rw [← Option.isSome_map (f := TrimmedStats.kept), h.in_bounds, Option.isSome_some]
  have hbounds := TrimmedStats.fromSamples_isSome_iff.mp hsome
  have hne : samples ≠ [] := by
    rintro rfl
    rw [trimEnd, List.length_nil] at hbounds
    omega
  have hlow := h.low hne
  simp only [trimEnd, trimStart] at hbounds hlow
  exact ⟨hne, by omega⟩

/-- Trimming is in bounds and central exactly if there are samples and the product of their
number and the ratio, as the machine takes it, is below the first whole number above their
half. -/
theorem centralTrim_iff (samples : List PeerSample) (trimRatio : F64) :
    CentralTrim samples trimRatio ↔ samples ≠ [] ∧
      F64.times samples.length trimRatio < (samples.length / 2 : Nat) + 1 := by
  rw [← trimCount_le_iff]
  constructor
  · intro h
    obtain ⟨hne, hhalf⟩ := h.le
    exact ⟨hne, by omega⟩
  · rintro ⟨hne, hhalf⟩
    exact centralTrim_of_le hne (by omega)

/-- Over exact rationals an iteration panics exactly if it has samples, and trims all that it
selects. -/
theorem fuseSamples_eq_none_iff {filter : FilterCfg} {ewma : WeightedEwma}
    {samples : List PeerSample} :
    fuseSamples filter ewma samples = none ↔ samples ≠ [] ∧ 1 ≤ filter.trimRatio := by
  by_cases hne : samples = []
  · rw [hne]
    simp [fuseSamples]
  · have hbest := selectBestPeers_ne_nil filter.bestQuantile hne
    have hpos := List.length_pos_of_ne_nil hbest
    have hfused : fuseSamples filter ewma samples = none ↔ TrimmedStats.fromSamples exactTimes
        (selectBestPeers samples filter.bestQuantile) filter.trimRatio = none := by
      rw [fuseSamples, List.isEmpty_eq_false_iff.mpr hne]
      simp only [Bool.false_eq_true, if_false, List.isEmpty_eq_false_iff.mpr hbest]
      cases hstats : TrimmedStats.fromSamples exactTimes
        (selectBestPeers samples filter.bestQuantile) filter.trimRatio with
      | none => simp
      | some stats => by_cases hkept : stats.kept = [] <;> simp [hkept]
    rw [hfused, ← Option.not_isSome_iff_eq_none, TrimmedStats.fromSamples_isSome_iff]
    generalize (selectBestPeers samples filter.bestQuantile).length = n at hpos
    have hfits : trimEnd exactTimes n filter.trimRatio ≤ n ↔
        trimCount exactTimes n filter.trimRatio ≤ n - 1 := by
      simp only [trimEnd, trimStart]
      omega
    have hcast : ((n - 1 : Nat) : F64) + 1 = n := by exact_mod_cast Nat.sub_add_cancel hpos
    have hn : (0 : F64) < n := by exact_mod_cast hpos
    rw [hfits, trimCount_le_iff, exactTimes, hcast, not_lt, le_mul_iff_one_le_right hn]
    simp [hne]

def offsetSample (offset : F64) : PeerSample := .fromSeries 1 1 [(0, offset)] [] []

/-- Three quarters off each side leave the highest of four samples alone, a ratio just below two
thirds, whose product with three is rounded up to two, leaves the highest of three alone, and
from a ratio of one on the slice is out of bounds. -/
theorem not_centralTrim_upper :
    ¬ CentralTrim ([0, 1, 2, 1000].map offsetSample) (3 / 4) ∧
      (TrimmedStats.fromSamples F64.times ([0, 1, 2, 1000].map offsetSample) (3 / 4)).map
        (fun stats => stats.kept.map PeerSample.offsetMedianNs) = some [1000] ∧
      (TrimmedStats.fromSamples F64.times ([0, 1, 1000].map offsetSample)
        (6004799503160661 / 2 ^ 53)).map
          (fun stats => stats.kept.map PeerSample.offsetMedianNs) = some [1000] ∧
      TrimmedStats.fromSamples F64.times ([0, 1, 2, 1000].map offsetSample) 1 = none ∧
      TrimmedStats.fromSamples F64.times [] 0 = none := by
  refine ⟨?_, by decide +kernel, by decide +kernel, by decide +kernel, by decide +kernel⟩
  intro h
  have hhalf := h.le.2
  have hcount : trimCount F64.times ([0, 1, 2, 1000].map offsetSample).length (3 / 4) = 3 := by
    decide +kernel
  rw [hcount] at hhalf
  exact absurd hhalf (by decide)

end Zeitpeer
