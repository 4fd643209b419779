import Zeitpeer.Net.Fusion

/-!
# The fused clock under faulty sources

As long as no more of the selected samples are faulty than are trimmed on one side, the mean
of every iteration lies between good offsets, and the average, which blends it into its state,
never leaves the interval either.
-/

namespace Zeitpeer

open Framework Machine

variable {cfg : Config} {low high : F64}

/-- What has been fused so far, and the state of the average, lie in an interval. -/
structure Bounded (low high : F64) (es : List FusionEvent) (s : FusionState) : Prop where
  state : s.ewma.init = true → low ≤ s.ewma.state ∧ s.ewma.state ≤ high
  fused : ∀ f, .fused f ∈ es → (low ≤ f.stats.meanOffsetNs ∧ f.stats.meanOffsetNs ≤ high) ∧
    (low ≤ f.smoothed ∧ f.smoothed ≤ high)

private theorem FusionStep.bounded {es fs : List FusionEvent} {s s' : FusionState}
    {a : FusionAction} (hstep : FusionStep cfg s a s' fs) (h : Bounded low high es s)
    (hmean : ∀ since samples stats, s.task = .collecting since [] samples → samples ≠ [] →
      TrimmedStats.fromSamples exactTimes (selectBestPeers samples cfg.filter.bestQuantile)
        cfg.filter.trimRatio = some stats →
      low ≤ stats.meanOffsetNs ∧ stats.meanOffsetNs ≤ high) :
    Bounded low high (es ++ fs) s' := by
  have hold : ∀ {fs}, (∀ f, .fused f ∉ fs) → ∀ f, .fused f ∈ es ++ fs →
      (low ≤ f.stats.meanOffsetNs ∧ f.stats.meanOffsetNs ≤ high) ∧
        (low ≤ f.smoothed ∧ f.smoothed ≤ high) := by
    intro fs hnone f hmem
    rcases List.mem_append.mp hmem with hmem | hmem
    · exact h.fused f hmem
    · exact absurd hmem (hnone f)
  cases hstep with
  | nothing ts htask hfuse =>
    rcases fuseSamples_cases hfuse with ⟨_, _, rfl⟩ | ⟨stats, _, _, hout, _⟩
    · exact ⟨h.state, hold (by simp)⟩
    · contradiction
  | @fuse since samples ewma f ts htask hfuse =>
    rcases fuseSamples_cases hfuse with ⟨_, hout, _⟩ | ⟨stats, hne, hstats, hout, hewma⟩
    · contradiction
    · obtain rfl := Option.some.inj hout
      subst hewma
      have hbetween := hmean since samples stats htask hne hstats
      obtain ⟨hpush, _, hpushed⟩ := WeightedEwma.push_between h.state hbetween
      refine ⟨fun _ => by rw [hpushed]; exact hpush, ?_⟩
      intro g hmem
      rcases List.mem_append.mp hmem with hmem | hmem
      · exact h.fused g hmem
      · obtain rfl := FusionEvent.fused.inj (List.mem_singleton.mp hmem)
        exact ⟨hbetween, hpush⟩
  | _ => exact ⟨h.state, hold (by simp)⟩

/-- A run whose iterations all have their means in the interval stays in it. -/
theorem run_bounded {ts : List FusionTurn} {s : FusionState}
    (hrun : (fusion cfg).Run (.init cfg) ts s)
    (hmean : ∀ t ∈ ts, ∀ since samples stats, t.before.task = .collecting since [] samples →
      samples ≠ [] → TrimmedStats.fromSamples exactTimes
        (selectBestPeers samples cfg.filter.bestQuantile) cfg.filter.trimRatio = some stats →
      low ≤ stats.meanOffsetNs ∧ stats.meanOffsetNs ≤ high) :
    Bounded low high (events ts) s := by
  refine hrun.invariant_of (I := fun ts s => Bounded low high (events ts) s) ?_ ?_ hmean
  · refine ⟨fun hinit => ?_, by simp⟩
    exact absurd hinit (by simp [FusionState.init, WeightedEwma.new])
  · intro ts s a s' es _ h hstep hturn
    rw [events_append, events_singleton]
    exact (FusionStep.of_step hstep).bounded h hturn

/-- Every fused mean and every smoothed value of a run lies between the good offsets, if in
every iteration with a sample the faulty ones are no more than are trimmed on one side. -/
theorem fused_between {ts : List FusionTurn} {s : FusionState}
    (hr : cfg.filter.trimRatio < 1 / 2) (hrun : (fusion cfg).Run (.init cfg) ts s)
    (htrust : ∀ t ∈ ts, ∀ since samples, t.before.task = .collecting since [] samples →
      samples ≠ [] → Trustworthy cfg.filter low high samples) :
    ∀ f, .fused f ∈ events ts → (low ≤ f.stats.meanOffsetNs ∧ f.stats.meanOffsetNs ≤ high) ∧
      (low ≤ f.smoothed ∧ f.smoothed ≤ high) := by
  refine (run_bounded hrun ?_).fused
  intro t ht since samples stats htask hne hstats
  exact (htrust t ht since samples htask hne).mean_between hr hne hstats

/-- A node that fuses three NTP servers and trims one sample on either side. -/
def trioConfig : Config :=
  { nodeId := 1
    phcDevice := none
    sampling := { intervalMs := 1000, windowSec := 30 }
    filter := { lambda := 1 / 4, trimRatio := 2 / 5, bestQuantile := 1, minSamplesPerPeer := 1 }
    peers := [{ id := 1, ip := "10.0.0.1", port := 32001 }]
    ntpSources :=
      [{ id := 11, host := "a" }, { id := 12, host := "b" }, { id := 13, host := "c" }] }

def trioReads (id : UInt32) (offset : F64) : List FusionAction :=
  [.recent (.ntp id .offset) 970000000000 1 (some [⟨980000000000, offset⟩]),
    .recent (.ntp id .delay) 970000000000 1 (some [⟨980000000000, 20⟩]),
    .recent (.ntp id .jitter) 970000000000 1 (some [⟨980000000000, 2⟩])]

/-- Two servers agree within ten nanoseconds, the third is a second off. -/
def trioIteration : List FusionAction :=
  [.tick 1000000000000] ++ trioReads 11 3 ++ trioReads 12 1000000000 ++ trioReads 13 7 ++
    [.fuse 1000000000500]

theorem trioIteration_runs :
    ((fusion trioConfig).exec (.init trioConfig) trioIteration).isSome = true := by
  decide +kernel

/-- The offsets are outside the interval of the honest servers. -/
def trioFaulty (s : PeerSample) : Bool := decide (s.offsetMedianNs < 0 ∨ 10 < s.offsetMedianNs)

private theorem trioIteration_trustworthy :
    ∀ t ∈ (fusion trioConfig).turnsOf (.init trioConfig) trioIteration, ∀ since samples,
      t.before.task = .collecting since [] samples → samples ≠ [] →
        Trustworthy trioConfig.filter 0 10 samples := by
  have hfew : ∀ t ∈ (fusion trioConfig).turnsOf (.init trioConfig) trioIteration,
      ∀ samples ∈ t.before.task.collected?,
        (selectBestPeers samples 1).countP trioFaulty ≤
          trimCount exactTimes (selectBestPeers samples 1).length (2 / 5) := by
    decide +kernel
  intro t ht since samples htask _
  have hcollected : samples ∈ t.before.task.collected? := by
    rw [htask]
    rfl
  refine ⟨trioFaulty, hfew t ht samples hcollected, ?_⟩
  intro s _ hok
  have hboth := of_decide_eq_false hok
  rw [not_or, not_lt, not_lt] at hboth
  exact hboth

private theorem trioIteration_fuses :
    ∃ f, .fused f ∈ events ((fusion trioConfig).turnsOf (.init trioConfig) trioIteration) := by
  have hany : (events ((fusion trioConfig).turnsOf (.init trioConfig) trioIteration)).any
      (fun | .fused _ => true | _ => false) = true := by
    decide +kernel
  obtain ⟨e, he, hfused⟩ := List.any_eq_true.mp hany
  cases e with
  | fused f => exact ⟨f, he⟩
  | _ => contradiction

theorem fused_between_trio :
    ∃ f, .fused f ∈ events ((fusion trioConfig).turnsOf (.init trioConfig) trioIteration) ∧
      (0 ≤ f.stats.meanOffsetNs ∧ f.stats.meanOffsetNs ≤ 10) ∧
        (0 ≤ f.smoothed ∧ f.smoothed ≤ 10) := by
  obtain ⟨f, hf⟩ := trioIteration_fuses
  refine ⟨f, hf, fused_between ?_ (Run.of_actions trioIteration_runs)
    trioIteration_trustworthy f hf⟩
  norm_num [trioConfig]

end Zeitpeer
