import Zeitpeer.Framework.Cut
import Zeitpeer.Time.Fuse

/-!
# The order of the sources

The selection sorts by score and cuts, the trimming sorts by offset and cuts on both sides. Both
sorts are stable, so a tie that a cut runs through is decided by the order in which the sources
were read, and nothing else depends on that order.
-/

namespace Zeitpeer

open Framework

/-- What a sample adds to the means. -/
def PeerSample.vote (s : PeerSample) : F64 × F64 × F64 :=
  (s.offsetMedianNs, s.delayMedianNs, s.fusionWeight)

/-- What an iteration gets from the trimmed samples. -/
def TrimmedStats.result (stats : TrimmedStats) : F64 × F64 × F64 :=
  (stats.meanOffsetNs, stats.meanDelayNs, stats.totalWeight)

/-- The selection and the trimming of the samples. -/
def consensus (samples : List PeerSample) (quantile trimRatio : F64) : Option TrimmedStats :=
  TrimmedStats.fromSamples exactTimes (selectBestPeers samples quantile) trimRatio

/-- No cut runs through a tie of samples that count differently. -/
structure Untied (samples : List PeerSample) (quantile trimRatio : F64) : Prop where
  selected : CleanCut peerScore PeerSample.vote (keepCount samples.length quantile)
    (sortBy peerScore samples)
  low : CleanCut PeerSample.offsetMedianNs PeerSample.vote
    (trimCount exactTimes (selectBestPeers samples quantile).length trimRatio)
    (sortBy PeerSample.offsetMedianNs (selectBestPeers samples quantile))
  high : CleanCut PeerSample.offsetMedianNs PeerSample.vote
    ((selectBestPeers samples quantile).length -
      trimCount exactTimes (selectBestPeers samples quantile).length trimRatio)
    (sortBy PeerSample.offsetMedianNs (selectBestPeers samples quantile))

variable {samples samples' kept kept' : List PeerSample} {quantile trimRatio : F64}

private theorem keptMean_perm {value : PeerSample → F64} (of : F64 × F64 × F64 → F64)
    (hvalue : ∀ s, value s = of s.vote)
    (hperm : (kept.map PeerSample.vote).Perm (kept'.map PeerSample.vote)) :
    keptMean kept value = keptMean kept' value := by
  have hsum : ∀ g : F64 × F64 × F64 → F64, (kept.map fun s => g s.vote).sum =
      (kept'.map fun s => g s.vote).sum := by
    intro g
    have hmapped := (hperm.map g).sum_eq
    rw [List.map_map, List.map_map] at hmapped
    exact hmapped
  have hweight : (kept.map PeerSample.fusionWeight).sum = (kept'.map PeerSample.fusionWeight).sum :=
    hsum fun v => v.2.2
  have hlength : kept.length = kept'.length := by
    simpa using hperm.length_eq
  have hplain : (kept.map value).sum = (kept'.map value).sum := by
    rw [funext hvalue]
    exact hsum of
  have hweighted : (kept.map fun s => s.fusionWeight * value s).sum =
      (kept'.map fun s => s.fusionWeight * value s).sum := by
    simp only [hvalue]
    exact hsum fun v => v.2.2 * of v
  rw [keptMean, keptMean, hweight, hlength, hplain, hweighted]

private theorem selectBestPeers_perm (hperm : samples.Perm samples')
    (hcut : CleanCut peerScore PeerSample.vote (keepCount samples.length quantile)
      (sortBy peerScore samples)) :
    ((selectBestPeers samples quantile).map PeerSample.vote).Perm
      ((selectBestPeers samples' quantile).map PeerSample.vote) := by
  have hempty : samples.isEmpty = samples'.isEmpty := by
    rw [Bool.eq_iff_iff, List.isEmpty_iff, List.isEmpty_iff]
    constructor
    · rintro rfl
      exact hperm.symm.eq_nil
    · rintro rfl
      exact hperm.eq_nil
  have hsorted := (sortBy_perm peerScore samples).trans
    (hperm.trans (sortBy_perm peerScore samples').symm)
  rw [selectBestPeers, selectBestPeers, ← hempty, ← hperm.length_eq]
  split
  · exact .refl _
  · exact hcut.take_perm hsorted (pairwise_sortBy _ _) (pairwise_sortBy _ _)

private theorem fromSamples_perm {stats : TrimmedStats} (hr : trimRatio < 1 / 2)
    (hperm : (samples.map PeerSample.vote).Perm (samples'.map PeerSample.vote))
    (hlow : CleanCut PeerSample.offsetMedianNs PeerSample.vote
      (trimCount exactTimes samples.length trimRatio) (sortBy PeerSample.offsetMedianNs samples))
    (hhigh : CleanCut PeerSample.offsetMedianNs PeerSample.vote
      (samples.length - trimCount exactTimes samples.length trimRatio)
      (sortBy PeerSample.offsetMedianNs samples))
    (hstats : TrimmedStats.fromSamples exactTimes samples trimRatio = some stats) :
    ∃ stats', TrimmedStats.fromSamples exactTimes samples' trimRatio = some stats' ∧
      (stats.kept.map PeerSample.vote).Perm (stats'.kept.map PeerSample.vote) := by
  have hlength : samples.length = samples'.length := by
    simpa using hperm.length_eq
  have hne : samples ≠ [] := by
    rintro rfl
    obtain ⟨hkept, hmem, _⟩ := TrimmedStats.fromSamples_kept hstats
    obtain ⟨s, hs⟩ := List.exists_mem_of_ne_nil _ hkept
    exact List.not_mem_nil (hmem s hs)
  have hne' : samples' ≠ [] := by
    rintro rfl
    exact hne (List.length_eq_zero_iff.mp hlength)
  obtain ⟨_, hsome, hkept⟩ := TrimmedStats.fromSamples_trimmed hne hr
  rw [hstats] at hsome
  obtain rfl := Option.some.inj hsome
  obtain ⟨stats', hstats', hkept'⟩ := TrimmedStats.fromSamples_trimmed hne' hr
  refine ⟨stats', hstats', ?_⟩
  -- the votes are cut as the samples are
  have hclean : ∀ k, CleanCut PeerSample.offsetMedianNs PeerSample.vote k
      (sortBy PeerSample.offsetMedianNs samples) →
      CleanCut Prod.fst id k ((sortBy PeerSample.offsetMedianNs samples).map PeerSample.vote) := by
    intro k hcut v hv w hw hsame
    rw [← List.map_take] at hv
    rw [← List.map_drop] at hw
    obtain ⟨a, ha, rfl⟩ := List.mem_map.mp hv
    obtain ⟨b, hb, rfl⟩ := List.mem_map.mp hw
    exact hcut a ha b hb hsame
  have hsorted : ∀ l : List PeerSample,
      ((sortBy PeerSample.offsetMedianNs l).map PeerSample.vote).Pairwise
        fun v w => v.1 ≤ w.1 := fun l =>
    List.pairwise_map.mpr (pairwise_sortBy PeerSample.offsetMedianNs l)
  have hboth : ((sortBy PeerSample.offsetMedianNs samples).map PeerSample.vote).Perm
      ((sortBy PeerSample.offsetMedianNs samples').map PeerSample.vote) :=
    ((sortBy_perm _ _).map _).trans (hperm.trans ((sortBy_perm _ _).map _).symm)
  have hshort := two_mul_trimCount_lt (List.length_pos_of_ne_nil hne) hr
  rw [hkept, hkept', map_trimmed, map_trimmed, ← hlength]
  have hlong : ((sortBy PeerSample.offsetMedianNs samples).map PeerSample.vote).length =
      samples.length := by
    rw [List.length_map, length_sortBy]
  refine trimmed_perm ?_ (hclean _ hlow) ?_ hboth (hsorted samples) (hsorted samples')
  · rw [hlong]
    omega
  · rw [hlong]
    exact hclean _ hhigh

theorem fromSamples_totalWeight {stats : TrimmedStats}
    (h : TrimmedStats.fromSamples exactTimes samples trimRatio = some stats) :
    stats.totalWeight = max (stats.kept.map PeerSample.fusionWeight).sum F64_EPSILON := by
  simp only [TrimmedStats.fromSamples] at h
  split at h
  · contradiction
  · obtain rfl := Option.some.inj h
    rfl

private theorem TrimmedStats.result_perm {stats stats' : TrimmedStats}
    (h : fromSamples exactTimes samples trimRatio = some stats)
    (h' : fromSamples exactTimes samples' trimRatio = some stats')
    (hperm : (stats.kept.map PeerSample.vote).Perm (stats'.kept.map PeerSample.vote)) :
    stats.result = stats'.result := by
  obtain ⟨_, _, hoffset, hdelay⟩ := fromSamples_kept h
  obtain ⟨_, _, hoffset', hdelay'⟩ := fromSamples_kept h'
  have hweight : (stats.kept.map PeerSample.fusionWeight).sum =
      (stats'.kept.map PeerSample.fusionWeight).sum := by
    have hmapped := (hperm.map fun v => v.2.2).sum_eq
    rw [List.map_map, List.map_map] at hmapped
    exact hmapped
  have hoffsets : keptMean stats.kept PeerSample.offsetMedianNs =
      keptMean stats'.kept PeerSample.offsetMedianNs := keptMean_perm Prod.fst (fun _ => rfl) hperm
  have hdelays : keptMean stats.kept PeerSample.delayMedianNs =
      keptMean stats'.kept PeerSample.delayMedianNs :=
    keptMean_perm (fun v => v.2.1) (fun _ => rfl) hperm
  rw [result, result, hoffset, hoffset', hdelay, hdelay', fromSamples_totalWeight h,
    fromSamples_totalWeight h', hoffsets, hdelays, hweight]

/-- Unless a cut runs through a tie of samples that count differently, every order of the samples
gives the same means and the same total weight. -/
theorem consensus_perm (hr : trimRatio < 1 / 2) (hperm : samples.Perm samples')
    (hties : Untied samples quantile trimRatio) :
    (consensus samples quantile trimRatio).map TrimmedStats.result =
      (consensus samples' quantile trimRatio).map TrimmedStats.result := by
  have hvotes := selectBestPeers_perm hperm hties.selected
  by_cases hne : samples = []
  · subst hne
    rw [hperm.symm.eq_nil]
  · have hbest := selectBestPeers_ne_nil quantile hne
    obtain ⟨stats, hstats, _⟩ := TrimmedStats.fromSamples_trimmed hbest hr
    obtain ⟨stats', hstats', hkept⟩ := fromSamples_perm hr hvotes hties.low hties.high hstats
    rw [consensus, consensus, hstats, hstats']
    exact congrArg some (TrimmedStats.result_perm hstats hstats' hkept)

def delaySample (offset delay : F64) : PeerSample := .fromSeries 1 1 [(0, offset)] [(0, delay)] []

/-- Five samples, of which the slowest is not selected and the extremes are trimmed. -/
def spreadSamples : List PeerSample :=
  [delaySample 40 500, delaySample 10 600, delaySample 30 700, delaySample 20 800,
    delaySample 0 900]

/-- The selection cuts one sample off and each side of the trimming another, between different
scores and offsets. -/
theorem consensus_perm_reverse :
    (consensus spreadSamples (4 / 5) (1 / 4)).map TrimmedStats.result =
      (consensus spreadSamples.reverse (4 / 5) (1 / 4)).map TrimmedStats.result :=
  consensus_perm (by decide +kernel) (List.reverse_perm _).symm
    ⟨by decide +kernel, by decide +kernel, by decide +kernel⟩

/-- Of two samples with one score the first is selected. -/
theorem consensus_tied :
    [delaySample 0 500, delaySample 1000 500].Perm [delaySample 1000 500, delaySample 0 500] ∧
      (consensus [delaySample 0 500, delaySample 1000 500] (1 / 2) 0).map TrimmedStats.result ≠
        (consensus [delaySample 1000 500, delaySample 0 500] (1 / 2) 0).map
          TrimmedStats.result :=
  ⟨List.Perm.swap _ _ _, by decide +kernel⟩

end Zeitpeer
