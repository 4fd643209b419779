import Zeitpeer.Framework.Excess
import Zeitpeer.Net.Band
import Zeitpeer.Time.Consensus
import Zeitpeer.Time.Smoothing

/-!
# Back into the band

Nothing undoes what bad offsets have done to the average, but nothing keeps it either. From the
moment when the good sources' series hold only offsets of the band again, what is fused approaches
the band with every iteration, at least at the rate of the configured gain.
-/

namespace Zeitpeer

open Framework Machine Ensemble

variable {parse : String → UInt16 → Option SocketAddr} {cfg : Config} {low high : F64}

def FusionEvent.result? : FusionEvent → Option Fused
  | .fused f => some f
  | _ => none

/-- What has been fused, in order. -/
def fusedIn (es : List FusionEvent) : List Fused := es.filterMap FusionEvent.result?

@[simp] theorem fusedIn_append (es fs : List FusionEvent) :
    fusedIn (es ++ fs) = fusedIn es ++ fusedIn fs := by
  simp [fusedIn]

private theorem FusionStep.pushes {s s' : FusionState} {a : FusionAction} {es : List FusionEvent}
    (hstep : FusionStep cfg s a s' es) :
    (s'.ewma = s.ewma ∧ fusedIn es = []) ∨
      ∃ since samples stats, s.task = .collecting since [] samples ∧ samples ≠ [] ∧
        TrimmedStats.fromSamples exactTimes (selectBestPeers samples cfg.filter.bestQuantile)
          cfg.filter.trimRatio = some stats ∧
        s'.ewma = (s.ewma.push stats.meanOffsetNs stats.totalWeight).2 ∧
        fusedIn es = [⟨stats, (s.ewma.push stats.meanOffsetNs stats.totalWeight).1⟩] := by
  cases hstep with
  | nothing ts htask hfuse =>
    rcases fuseSamples_cases hfuse with ⟨_, _, rfl⟩ | ⟨stats, _, _, hout, _⟩
    · exact .inl ⟨rfl, rfl⟩
    · contradiction
  | @fuse since samples ewma f ts htask hfuse =>
    rcases fuseSamples_cases hfuse with ⟨_, hout, _⟩ | ⟨stats, hne, hstats, hout, hewma⟩
    · contradiction
    · obtain rfl := Option.some.inj hout
      exact .inr ⟨since, samples, stats, htask, hne, hstats, hewma, rfl⟩
  | _ => exact .inl ⟨rfl, rfl⟩

theorem run_lambda {ts : List FusionTurn} {s : FusionState}
    (hrun : (fusion cfg).Run (.init cfg) ts s) :
    s.ewma.lambda = clamp 0 1 cfg.filter.lambda := by
  induction hrun with
  | start => rfl
  | turn _ hstep ih =>
    rcases (FusionStep.of_step hstep).pushes with ⟨hsame, _⟩ | ⟨_, _, _, _, _, _, hpush, _⟩
    · rw [hsame, ih]
    · rw [hpush]
      exact ih

/-- How far the average is outside; before its first push there is nothing to be off. -/
def WeightedEwma.excess (low high : F64) (e : WeightedEwma) : F64 :=
  if e.init then Framework.excess low high e.state else 0

theorem WeightedEwma.excess_nonneg (low high : F64) (e : WeightedEwma) :
    0 ≤ e.excess low high := by
  rw [WeightedEwma.excess]
  split
  · exact Framework.excess_nonneg _ _ _
  · exact le_rfl

private theorem WeightedEwma.excess_push {e : WeightedEwma} {value weight : F64}
    (hlow : 0 ≤ e.lambda)
    (hhigh : e.lambda ≤ 1) (hweight : 0 ≤ weight) (hvalue : low ≤ value ∧ value ≤ high) :
    Framework.excess low high (e.push value weight).1 ≤ (1 - e.lambda) * e.excess low high := by
  obtain ⟨hgain, hgain1⟩ := gain_between hlow hhigh hweight
  rw [WeightedEwma.excess]
  by_cases hinit : e.init = true
  · have hblend := excess_blend (y := e.state) (hlow.trans hgain) hgain1 hvalue
    have hpush : (e.push value weight).1 =
        gain e.lambda weight * value + (1 - gain e.lambda weight) * e.state := if_pos hinit
    rw [hpush, if_pos hinit]
    apply hblend.trans
    exact mul_le_mul_of_nonneg_right (by linarith) (Framework.excess_nonneg _ _ _)
  · have hpush : (e.push value weight).1 = value := if_neg hinit
    rw [hpush, if_neg hinit, excess_of_between hvalue, mul_zero]

/-- The `k`-th fused offset, and the average after them all, have lost their share each time. -/
structure Recovers (low high share left : F64) (fs : List Fused) (e : WeightedEwma) : Prop where
  average : e.excess low high ≤ (1 - share) ^ fs.length * left
  fused : ∀ k f, fs[k]? = some f →
    Framework.excess low high f.smoothed ≤ (1 - share) ^ (k + 1) * left

private theorem Recovers.push {share left : F64} {fs : List Fused} {e : WeightedEwma}
    (h : Recovers low high share left fs e) (hshare : e.lambda = share) (hlow : 0 ≤ share)
    (hhigh : share ≤ 1) {stats : TrimmedStats} (hweight : 0 ≤ stats.totalWeight)
    (hmean : low ≤ stats.meanOffsetNs ∧ stats.meanOffsetNs ≤ high) :
    Recovers low high share left
      (fs ++ [⟨stats, (e.push stats.meanOffsetNs stats.totalWeight).1⟩])
      (e.push stats.meanOffsetNs stats.totalWeight).2 := by
  subst hshare
  have hrest : 0 ≤ 1 - e.lambda := by linarith
  have hnext : Framework.excess low high (e.push stats.meanOffsetNs stats.totalWeight).1 ≤
      (1 - e.lambda) ^ (fs.length + 1) * left := by
    calc Framework.excess low high (e.push stats.meanOffsetNs stats.totalWeight).1
        ≤ (1 - e.lambda) * e.excess low high := e.excess_push hlow hhigh hweight hmean
      _ ≤ (1 - e.lambda) * ((1 - e.lambda) ^ fs.length * left) :=
        mul_le_mul_of_nonneg_left h.average hrest
      _ = (1 - e.lambda) ^ (fs.length + 1) * left := by rw [pow_succ', mul_assoc]
  constructor
  · rw [List.length_append, List.length_singleton]
    exact hnext
  · intro k f hf
    rw [List.getElem?_append] at hf
    split at hf
    · exact h.fused k f hf
    · rename_i hlast
      obtain ⟨hk, rfl⟩ := List.getElem?_eq_some_iff.mp hf
      have hlength : k = fs.length := by
        rw [List.length_singleton] at hk
        omega
      subst hlength
      simpa using hnext

theorem run_recovers {share : F64} (hlow : 0 ≤ share) (hhigh : share ≤ 1) {start s : FusionState}
    (hshare : start.ewma.lambda = share) {ts : List FusionTurn}
    (hrun : (fusion cfg).Run start ts s)
    (hmean : ∀ t ∈ ts, ∀ since samples stats, t.before.task = .collecting since [] samples →
      samples ≠ [] → TrimmedStats.fromSamples exactTimes
        (selectBestPeers samples cfg.filter.bestQuantile) cfg.filter.trimRatio = some stats →
      low ≤ stats.meanOffsetNs ∧ stats.meanOffsetNs ≤ high) :
    Recovers low high share (start.ewma.excess low high) (fusedIn (events ts)) s.ewma := by
  refine (hrun.invariant_of (I := fun ts s => s.ewma.lambda = share ∧
    Recovers low high share (start.ewma.excess low high) (fusedIn (events ts)) s.ewma)
    ⟨hshare, ?_, ?_⟩ ?_ hmean).2
  · simp [fusedIn]
  · simp [fusedIn]
  · intro ts s a s' es _ ih hstep hturn
    rw [events_append, events_singleton, fusedIn_append]
    rcases (FusionStep.of_step hstep).pushes with
      ⟨hsame, hnone⟩ | ⟨since, samples, stats, htask, hne, hstats, hpush, hone⟩
    · rw [hsame, hnone, List.append_nil]
      exact ih
    · have hweight : 0 ≤ stats.totalWeight := by
        rw [fromSamples_totalWeight hstats]
        exact le_max_of_le_right (by norm_num [F64_EPSILON])
      rw [hpush, hone]
      exact ⟨ih.1, ih.2.push ih.1 hlow hhigh hweight (hturn since samples stats htask hne hstats)⟩

/-- Whatever a run has done to the average, from an idle loop on over series with good offsets only
the distance of the fused offsets to the band shrinks with every iteration by the configured gain
at least. -/
theorem offsets_recover {bad : Source → Bool} {store : Store} {ts us : List (DaemonTurn cfg)}
    {s₀ s : DaemonState cfg} (hr : cfg.filter.trimRatio < 1 / 2)
    (hrun : (daemon parse cfg).toMachine.Run (Daemon.init cfg store) ts s₀)
    (hidle : (s₀.members .fusion).task = .idle)
    (hmore : (daemon parse cfg).toMachine.Run s₀ us s)
    (hband : Banded low high bad s₀.medium us)
    (hvotes : ∀ t ∈ view Task.fusion us, ∀ since samples,
      t.before.task = .collecting since [] samples → samples ≠ [] → Outvotes cfg bad samples) :
    ∀ k f, (fusedIn (events (view Task.fusion us)))[k]? = some f →
      excess low high f.smoothed ≤ (1 - clamp 0 1 cfg.filter.lambda) ^ (k + 1) *
        (s₀.members .fusion).ewma.excess low high := by
  have hbefore : (fusion cfg).Run (.init cfg) (view Task.fusion ts) (s₀.members .fusion) :=
    run_view hrun .fusion
  have hafter : (fusion cfg).Run (s₀.members .fusion) (view Task.fusion us) (s.members .fusion) :=
    run_view hmore .fusion
  obtain ⟨hlow, hhigh⟩ := clamp_between (zero_le_one (α := F64)) cfg.filter.lambda
  exact (run_recovers hlow hhigh (run_lambda hbefore) hafter
    (hband.mean hr hidle hmore hvotes)).fused

/-- All three servers are a microsecond off. -/
def awryStore : Store
  | .ntp _ .offset => [⟨980000000000, 1000⟩]
  | .ntp _ .delay => [⟨980000000000, 20⟩]
  | .ntp _ .jitter => [⟨980000000000, 2⟩]
  | _ => []

def awryIteration (first third : F64) : List FusionAction :=
  [.tick 1000000000000] ++ trioReads 11 first ++ trioReads 12 1000 ++ trioReads 13 third ++
    [.fuse 1000000000500]

/-- The entry of a server gives way to another one. -/
def exchangeEntry (id : UInt32) (val : F64) : List StoreDrift :=
  [.lose (.ntp id .offset) ⟨980000000000, 1000⟩,
    .write { key := .ntp id .offset, tsNs := 980000000000, val := val, windowNs := 30000000000 }]

abbrev TrioMove := Move (Task.Action (n := trioConfig.ntpSources.length)) StoreDrift

/-- A whole iteration over offsets that are off, and then two of the servers are right. -/
def awryMoves : List TrioMove :=
  let iteration : List FusionAction := awryIteration 1000 1000 ++ List.replicate 3 .publish ++
    [.phcOffset .unreadable .unreadable] ++ List.replicate 5 .publish
  iteration.map (fun a : FusionAction => .member .fusion a) ++
    (exchangeEntry 11 3 ++ exchangeEntry 13 7).map Move.drift

def repairedMoves : List TrioMove :=
  (awryIteration 3 7).map fun a : FusionAction => .member .fusion a

def trioDaemon : Machine (DaemonState trioConfig) TrioMove
    (Sigma (Task.Event (n := trioConfig.ntpSources.length))) :=
  (daemon (fun _ _ => none) trioConfig).toMachine

def awryState : DaemonState trioConfig :=
  trioDaemon.stateAfter (Daemon.init trioConfig awryStore) awryMoves

def repairedTurns : List (DaemonTurn trioConfig) := trioDaemon.turnsOf awryState repairedMoves

private theorem awryMoves_run :
    (trioDaemon.exec (Daemon.init trioConfig awryStore) awryMoves).isSome = true := by
  decide +kernel

private theorem repairedMoves_run : (trioDaemon.exec awryState repairedMoves).isSome = true := by
  decide +kernel

private theorem repaired_banded : Banded 0 10 isTwelve awryState.medium repairedTurns := by
  have hstart : ∀ src ∈ sources trioConfig, isTwelve src = false →
      ∀ e ∈ awryState.medium src.offsetKey, 0 ≤ e.val ∧ e.val ≤ 10 := by decide +kernel
  have hnone : ∀ t ∈ repairedTurns, written t = [] := by decide +kernel
  refine ⟨hstart, ?_⟩
  intro t ht w hw
  rw [hnone t ht] at hw
  exact absurd hw List.not_mem_nil

theorem offsets_recover_trio :
    ∃ f, fusedIn (events (view Task.fusion repairedTurns)) = [f] ∧ 10 < f.smoothed ∧
      excess 0 10 f.smoothed ≤ (1 - clamp 0 1 (1 / 4)) ^ 1 * excess 0 10 1000 := by
  have hvotes : ∀ t ∈ view Task.fusion repairedTurns, ∀ samples ∈ t.before.task.collected?,
      (sources trioConfig).countP isTwelve ≤
        trimCount exactTimes (selectBestPeers samples trioConfig.filter.bestQuantile).length
          trioConfig.filter.trimRatio := by
    decide +kernel
  have hfused : (fusedIn (events (view Task.fusion repairedTurns))).map
      (fun f => decide (10 < f.smoothed)) = [true] := by
    decide +kernel
  have hstart : (awryState.members .fusion).ewma.excess 0 10 = excess 0 10 1000 := by
    decide +kernel
  have hidle : (awryState.members .fusion).task = .idle := by decide +kernel
  have hrecover := offsets_recover (by norm_num [trioConfig]) (Run.of_actions awryMoves_run) hidle
    (Run.of_actions repairedMoves_run) repaired_banded
    fun t ht since samples htask _ => hvotes t ht samples (by rw [htask]; rfl)
  obtain ⟨f, hone, hfar⟩ := List.map_eq_singleton_iff.mp hfused
  have hfirst := hrecover 0 f (by
    change (fusedIn (events (view Task.fusion repairedTurns)))[0]? = some f
    rw [hone]
    rfl)
  refine ⟨f, hone, of_decide_eq_true hfar, ?_⟩
  rw [← hstart]
  exact hfirst

end Zeitpeer
