import Zeitpeer.Time.Fuse
import Mathlib.Algebra.BigOperators.Ring.List

/-!
# A constant added to every offset

Sources that are all ahead by the same constant have the same scores and the same order by
offset, so the same ones are selected and kept, and what is computed from their offsets is ahead
by that constant, up to the average.
-/

namespace Zeitpeer

open Framework

/-- The readings of a series with a constant added to their values. -/
def shiftReadings (c : F64) (readings : List (UInt64 × F64)) : List (UInt64 × F64) :=
  readings.map fun r => (r.1, r.2 + c)

def PeerSample.shift (c : F64) (s : PeerSample) : PeerSample :=
  { s with offsetMedianNs := s.offsetMedianNs + c }

def TrimmedStats.shift (c : F64) (stats : TrimmedStats) : TrimmedStats :=
  { stats with
    meanOffsetNs := stats.meanOffsetNs + c
    kept := stats.kept.map (PeerSample.shift c) }

/-- An average that nothing has been pushed to has no state to shift. -/
def WeightedEwma.shift (c : F64) (e : WeightedEwma) : WeightedEwma :=
  if e.init then { e with state := e.state + c } else e

def Fused.shift (c : F64) (f : Fused) : Fused :=
  { stats := f.stats.shift c, smoothed := f.smoothed + c }

variable {c : F64} {quantile trimRatio : F64} {samples : List PeerSample}

private theorem exists_robustMedian {values : List F64} (hne : values ≠ []) :
    ∃ m, robustMedian values = some m := by
  have hempty : values.isEmpty = false := List.isEmpty_eq_false_iff.mpr hne
  simp only [robustMedian, hempty, Bool.false_eq_true, if_false]
  split <;> exact ⟨_, rfl⟩

private theorem robustMedian_shift {values : List F64} (hne : values ≠ []) :
    robustMedian (values.map (· + c)) = (robustMedian values).map (· + c) := by
  have hempty : values.isEmpty = false := List.isEmpty_eq_false_iff.mpr hne
  have hsorted : sortBy id (values.map (· + c)) = (sortBy id values).map (· + c) := by
    refine (map_sortBy ?_ values).symm
    intro a b
    exact (add_le_add_iff_right c).symm
  have hpos : 0 < values.length := List.length_pos_of_ne_nil hne
  have hget : ∀ i < values.length, ((sortBy id values).map (· + c)).getD i 0 =
      (sortBy id values).getD i 0 + c := by
    intro i hi
    rw [← length_sortBy id values] at hi
    rw [List.getD_eq_getElem _ _ (by simpa using hi), List.getElem_map,
      List.getD_eq_getElem _ _ hi]
  simp only [robustMedian, List.isEmpty_map, hempty, hsorted, List.length_map, length_sortBy]
  by_cases heven : values.length % 2 = 0
  · have hmid : values.length / 2 - 1 < values.length := by omega
    have hmid' : values.length / 2 < values.length := by omega
    simp only [heven, if_true, Bool.false_eq_true, if_false, Option.map_some]
    rw [hget _ hmid, hget _ hmid']
    congr 1
    ring
  · have hmid : values.length / 2 < values.length := by omega
    simp only [heven, if_false, Bool.false_eq_true, Option.map_some]
    rw [hget _ hmid]

/-- Only the offset median of a source with offsets is shifted. -/
theorem fromSeries_shift {peerId : UInt32} {weight : F64}
    {offsets delays jitters : List (UInt64 × F64)} (hne : offsets ≠ []) :
    PeerSample.fromSeries peerId weight (shiftReadings c offsets) delays jitters =
      (PeerSample.fromSeries peerId weight offsets delays jitters).shift c := by
  have hvalues : (shiftReadings c offsets).map Prod.snd = (offsets.map Prod.snd).map (· + c) := by
    rw [shiftReadings, List.map_map, List.map_map]
    rfl
  have hne' : offsets.map Prod.snd ≠ [] := by simpa using hne
  obtain ⟨m, hm⟩ := exists_robustMedian hne'
  simp only [PeerSample.fromSeries, PeerSample.shift, hvalues, robustMedian_shift hne', hm,
    Option.map_some, Option.getD_some]

/-- The scores do not depend on the offsets. -/
theorem selectBestPeers_shift :
    selectBestPeers (samples.map (PeerSample.shift c)) quantile =
      (selectBestPeers samples quantile).map (PeerSample.shift c) := by
  have hsorted : sortBy peerScore (samples.map (PeerSample.shift c)) =
      (sortBy peerScore samples).map (PeerSample.shift c) := by
    refine (map_sortBy ?_ samples).symm
    intro a b
    exact Iff.rfl
  simp only [selectBestPeers, List.isEmpty_map, List.length_map, hsorted]
  split
  · rfl
  · rw [List.map_take]

private theorem keptMean_shift_offset {kept : List PeerSample} (hne : kept ≠ []) :
    keptMean (kept.map (PeerSample.shift c)) PeerSample.offsetMedianNs =
      keptMean kept PeerSample.offsetMedianNs + c := by
  have hpos := fusionWeight_sum_pos hne
  have hweights : (kept.map (PeerSample.shift c)).map PeerSample.fusionWeight =
      kept.map PeerSample.fusionWeight := by
    rw [List.map_map]
    rfl
  have hsum : ((kept.map (PeerSample.shift c)).map fun s => s.fusionWeight * s.offsetMedianNs).sum =
      (kept.map fun s => s.fusionWeight * s.offsetMedianNs).sum +
        (kept.map PeerSample.fusionWeight).sum * c := by
    rw [List.map_map, ← List.sum_map_mul_right, ← List.sum_map_add]
    congr 1
    refine List.map_congr_left fun s _ => ?_
    exact mul_add s.fusionWeight s.offsetMedianNs c
  simp only [keptMean, hweights, if_pos hpos, hsum]
  rw [add_div, mul_div_cancel_left₀ _ hpos.ne']

private theorem keptMean_shift_delay {kept : List PeerSample} :
    keptMean (kept.map (PeerSample.shift c)) PeerSample.delayMedianNs =
      keptMean kept PeerSample.delayMedianNs := by
  simp only [keptMean, List.map_map, List.length_map]
  rfl

private theorem fromSamples_shift :
    TrimmedStats.fromSamples exactTimes (samples.map (PeerSample.shift c)) trimRatio =
      (TrimmedStats.fromSamples exactTimes samples trimRatio).map (TrimmedStats.shift c) := by
  have hsorted : sortBy PeerSample.offsetMedianNs (samples.map (PeerSample.shift c)) =
      (sortBy PeerSample.offsetMedianNs samples).map (PeerSample.shift c) := by
    refine (map_sortBy ?_ samples).symm
    intro a b
    exact (add_le_add_iff_right c).symm
  cases hstats : TrimmedStats.fromSamples exactTimes samples trimRatio with
  | none =>
    simp only [TrimmedStats.fromSamples, hsorted, List.length_map] at hstats ⊢
    split at hstats
    · rename_i hlong
      rw [if_pos hlong]
      rfl
    · contradiction
  | some stats =>
    obtain ⟨hne, _⟩ := TrimmedStats.fromSamples_kept hstats
    simp only [TrimmedStats.fromSamples, hsorted, List.length_map] at hstats ⊢
    split at hstats
    · contradiction
    · rename_i hlong
      obtain rfl := Option.some.inj hstats
      rw [if_neg hlong, ← List.map_take, ← List.map_drop, keptMean_shift_offset hne,
        keptMean_shift_delay, List.map_map]
      rfl

private theorem WeightedEwma.push_shift (e : WeightedEwma) (value weight : F64) :
    (e.shift c).push (value + c) weight =
      ((e.push value weight).1 + c, (e.push value weight).2.shift c) := by
  by_cases hinit : e.init = true
  · have hstate : ∀ alpha : F64, alpha * (value + c) + (1 - alpha) * (e.state + c) =
        alpha * value + (1 - alpha) * e.state + c := fun alpha => by ring
    simp only [push, shift, hinit, if_true, hstate]
  · simp only [push, shift, hinit, if_false, Bool.false_eq_true, if_true]

/-- What an iteration makes of shifted samples and a shifted average is shifted. -/
theorem fuseSamples_shift (filter : FilterCfg) (ewma : WeightedEwma) (samples : List PeerSample) :
    fuseSamples filter (ewma.shift c) (samples.map (PeerSample.shift c)) =
      (fuseSamples filter ewma samples).map fun r => (r.1.map (Fused.shift c), r.2.shift c) := by
  simp only [fuseSamples, List.isEmpty_map, selectBestPeers_shift, fromSamples_shift]
  split
  · rfl
  · split
    · rfl
    · cases hstats : TrimmedStats.fromSamples exactTimes
        (selectBestPeers samples filter.bestQuantile) filter.trimRatio with
      | none => rfl
      | some stats =>
        simp only [Option.map_some, TrimmedStats.shift, List.isEmpty_map]
        split
        · rfl
        · simp only [WeightedEwma.push_shift, Option.map_some]
          rfl

end Zeitpeer
