import Zeitpeer.Net.Discipline

/-!
# Offsets in a band

What the sources store reaches the fused clock through the store, the reads of the loop, the
medians and the trimming, with other tasks and other processes writing in between. If all
offsets but those of a few sources are in a band, then whatever is fused and commanded is in it
too, however the turns are interleaved and whatever these few have stored.
-/

namespace Zeitpeer

open Framework Machine Ensemble

variable {parse : String → UInt16 → Option SocketAddr} {cfg : Config} {low high : F64}
  {bad : Source → Bool}

/-- What a turn writes, or another process does. -/
def written (t : DaemonTurn cfg) : List TsAdd :=
  match t.action with
  | .drift (.write w) => [w]
  | _ => storedBy t.emitted

/-- A series holds only values of the kind that was there and is written to it. -/
theorem run_values {P : SeriesKey → F64 → Prop} {start s : DaemonState cfg}
    (hstore : ∀ key, ∀ e ∈ start.medium key, P key e.val) {ts : List (DaemonTurn cfg)}
    (hrun : (daemon parse cfg).toMachine.Run start ts s)
    (hwritten : ∀ t ∈ ts, ∀ w ∈ written t, P w.key w.val) :
    ∀ key, ∀ e ∈ s.medium key, P key e.val := by
  refine hrun.invariant_of (P := fun t => ∀ w ∈ written t, P w.key w.val)
    (I := fun _ s => ∀ key, ∀ e ∈ s.medium key, P key e.val) hstore ?_ hwritten
  intro ts s a s' es _ ih hstep hturn key e he
  cases a with
  | drift d =>
    obtain ⟨medium, hdrift, rfl, rfl⟩ := step_drift hstep
    rcases mem_drift hdrift he with hold | ⟨w, rfl, hkey, hval⟩
    · exact ih key e hold
    · rw [hkey, hval]
      exact hturn w (List.mem_singleton_self w)
  | member i a =>
    obtain ⟨n, fs, _, _, rfl, rfl⟩ := step_member hstep
    rcases mem_absorb he with hold | ⟨x, hx, w, hwrite, hkey, hval⟩
    · exact ih key e hold
    · rw [hkey, hval]
      apply hturn w
      change w ∈ storedBy (fs.map (Sigma.mk i))
      rw [storedBy_map]
      exact List.mem_filterMap.mpr ⟨x, hx, hwrite⟩

/-- The offset of the sample is not in the band. -/
def outside (low high : F64) (s : PeerSample) : Bool :=
  decide (s.offsetMedianNs < low ∨ high < s.offsetMedianNs)

private theorem outside_eq_false {s : PeerSample} :
    outside low high s = false ↔ low ≤ s.offsetMedianNs ∧ s.offsetMedianNs ≤ high := by
  simp [outside]

/-- There are no more samples outside the band than bad sources are done with, and what is held
of a good source is in the band. -/
def WithinBudget (cfg : Config) (bad : Source → Bool) (low high : F64) : FusionTask → Prop
  | .collecting _ todo samples =>
    samples.countP (outside low high) + todo.countP bad ≤ (sources cfg).countP bad
  | .delays _ src offsets todo samples | .jitters _ src offsets _ todo samples =>
    samples.countP (outside low high) + (src :: todo).countP bad ≤ (sources cfg).countP bad ∧
      offsets ≠ [] ∧ (bad src = false → ∀ x ∈ offsets, low ≤ x.2 ∧ x.2 ≤ high)
  | _ => True

private theorem countP_fromSeries {src : Source} {offsets : List (UInt64 × F64)}
    (delays jitters : List (UInt64 × F64)) (hne : offsets ≠ [])
    (hgood : bad src = false → ∀ x ∈ offsets, low ≤ x.2 ∧ x.2 ≤ high) :
    [PeerSample.fromSeries src.id src.weight offsets delays jitters].countP (outside low high) ≤
      [src].countP bad := by
  cases hbad : bad src with
  | true =>
    rw [List.countP_singleton, List.countP_singleton, hbad, if_pos rfl]
    split <;> omega
  | false =>
    have hvalues : ∀ v ∈ offsets.map Prod.snd, low ≤ v ∧ v ≤ high := by
      intro v hv
      obtain ⟨x, hx, rfl⟩ := List.mem_map.mp hv
      exact hgood hbad x hx
    obtain ⟨median, hmedian, hbetween⟩ := robustMedian_between (by simpa using hne) hvalues
    have hinside : outside low high
        (PeerSample.fromSeries src.id src.weight offsets delays jitters) = false := by
      rw [outside_eq_false]
      simp only [PeerSample.fromSeries, hmedian, Option.getD_some]
      exact hbetween
    rw [List.countP_singleton, hinside]
    simp

private theorem FusionStep.withinBudget {s s' : FusionState} {a : FusionAction}
    {es : List FusionEvent}
    (hstep : FusionStep cfg s a s' es) (hahead : s.task.ahead <:+ sources cfg)
    (h : WithinBudget cfg bad low high s.task)
    (hreply : ∀ src ∈ sources cfg, bad src = false → ∀ since limit entries,
      a = .recent src.offsetKey since limit (some entries) →
        ∀ e ∈ entries, low ≤ e.val ∧ e.val ≤ high) :
    WithinBudget cfg bad low high s'.task := by
  cases hstep with
  | skip => exact h
  | tick => exact (Nat.zero_add _).le
  | @sparse since src todo samples entries htask =>
    rw [htask] at h
    have hskip : todo.countP bad ≤ (src :: todo).countP bad :=
      (List.sublist_cons_self src todo).countP_le
    exact (Nat.add_le_add_left hskip _).trans h
  | @enough since src todo samples entries htask hmany =>
    rw [htask] at h hahead
    have hpos := readLimit_pos cfg
    refine ⟨h, ?_, ?_⟩
    · apply List.ne_nil_of_length_pos
      rw [List.length_map]
      omega
    · intro hgood x hx
      obtain ⟨e, he, rfl⟩ := List.mem_map.mp hx
      exact hreply src (hahead.subset List.mem_cons_self) hgood since _ entries rfl e he
  | delays entries htask =>
    rw [htask] at h
    exact h
  | @jitters since src offsets delays todo samples entries htask =>
    rw [htask] at h
    obtain ⟨hfew, hne, hgood⟩ := h
    have hsample := countP_fromSeries delays (entries.map Entry.reading) hne hgood
    have hsplit : ([src] ++ todo).countP bad = [src].countP bad + todo.countP bad :=
      List.countP_append
    rw [List.singleton_append] at hsplit
    change (samples ++ [_]).countP (outside low high) + todo.countP bad ≤ _
    rw [List.countP_append]
    omega
  | @tsAdd _ rest
  | @slew _ _ rest
  | @hmSet _ rest
  | @phcAbsent _ _ _ _ rest => cases rest <;> trivial
  | _ => trivial

/-- What an iteration ends with, if the good sources are read in the band. -/
theorem run_withinBudget {ts : List FusionTurn} {start s : FusionState}
    (hidle : start.task = .idle) (hrun : (fusion cfg).Run start ts s)
    (hreply : ∀ t ∈ ts, ∀ src ∈ sources cfg, bad src = false → ∀ since limit entries,
      t.action = .recent src.offsetKey since limit (some entries) →
        ∀ e ∈ entries, low ≤ e.val ∧ e.val ≤ high) :
    WithinBudget cfg bad low high s.task := by
  refine (hrun.invariant_of
    (I := fun _ s => s.task.ahead <:+ sources cfg ∧ WithinBudget cfg bad low high s.task)
    ?_ ?_ hreply).2
  · rw [hidle]
    exact ⟨List.nil_suffix, trivial⟩
  · intro ts s a s' es _ h hstep hturn
    have hcases := FusionStep.of_step hstep
    exact ⟨hcases.ahead h.1, hcases.withinBudget h.1 h.2 hturn⟩

/-- More is trimmed on either side than the bad sources can fill. -/
def Outvotes (cfg : Config) (bad : Source → Bool) (samples : List PeerSample) : Prop :=
  (sources cfg).countP bad ≤
    trimCount exactTimes (selectBestPeers samples cfg.filter.bestQuantile).length
      cfg.filter.trimRatio

private theorem countP_selectBestPeers_le (p : PeerSample → Bool) (samples : List PeerSample)
    (quantile : F64) : (selectBestPeers samples quantile).countP p ≤ samples.countP p := by
  unfold selectBestPeers
  split
  · exact Nat.zero_le _
  · have hsorted := (sortBy_perm peerScore samples).countP_eq p
    exact (List.take_sublist _ _).countP_le.trans hsorted.le

private theorem WithinBudget.trustworthy {since : UInt64} {samples : List PeerSample}
    (h : WithinBudget cfg bad low high (.collecting since [] samples))
    (hvotes : Outvotes cfg bad samples) :
    Trustworthy cfg.filter low high samples := by
  have hfew : samples.countP (outside low high) ≤ (sources cfg).countP bad := h
  refine ⟨outside low high, ?_, fun s _ hs => outside_eq_false.mp hs⟩
  exact (countP_selectBestPeers_le _ _ _).trans (hfew.trans hvotes)

/-- The good sources' series start in the band, and only values in the band are written to them. -/
structure Banded (low high : F64) (bad : Source → Bool) (store : Store)
    (ts : List (DaemonTurn cfg)) : Prop where
  store : ∀ src ∈ sources cfg, bad src = false → ∀ e ∈ store src.offsetKey,
    low ≤ e.val ∧ e.val ≤ high
  written : ∀ t ∈ ts, ∀ w ∈ written t, ∀ src ∈ sources cfg, bad src = false →
    w.key = src.offsetKey → low ≤ w.val ∧ w.val ≤ high

private theorem Banded.earlier {store : Store} {ts us : List (DaemonTurn cfg)}
    (h : Banded low high bad store (ts ++ us)) : Banded low high bad store ts :=
  ⟨h.store, fun t ht => h.written t (List.mem_append_left us ht)⟩

private theorem Banded.read {start s : DaemonState cfg} {ts : List (DaemonTurn cfg)}
    (h : Banded low high bad start.medium ts)
    (hrun : (daemon parse cfg).toMachine.Run start ts s) :
    ∀ t ∈ view Task.fusion ts, ∀ src ∈ sources cfg, bad src = false → ∀ since limit entries,
      t.action = .recent src.offsetKey since limit (some entries) →
        ∀ e ∈ entries, low ≤ e.val ∧ e.val ≤ high := by
  intro t ht src hsrc hgood since limit entries haction e he
  obtain ⟨u, hu, hmove, _⟩ := mem_view ht
  obtain ⟨front, back, rfl⟩ := List.append_of_mem hu
  obtain ⟨hbefore, hstep, _⟩ := hrun.middle
  rw [hmove, haction] at hstep
  have hmem := ((read_answered hstep).mem he).1
  have hearlier := h.earlier
  exact run_values
    (P := fun key x => ∀ src ∈ sources cfg, bad src = false → key = src.offsetKey →
      low ≤ x ∧ x ≤ high)
    (fun key e he src hsrc hgood hkey => hearlier.store src hsrc hgood e (hkey ▸ he))
    hbefore hearlier.written _ e hmem src hsrc hgood rfl

/-- From an idle loop on, the mean of every iteration is in the band, as far as its samples outvote
the bad sources. -/
theorem Banded.mean {start s : DaemonState cfg} {ts : List (DaemonTurn cfg)}
    (h : Banded low high bad start.medium ts) (hr : cfg.filter.trimRatio < 1 / 2)
    (hidle : (start.members .fusion).task = .idle)
    (hrun : (daemon parse cfg).toMachine.Run start ts s)
    (hvotes : ∀ t ∈ view Task.fusion ts, ∀ since samples,
      t.before.task = .collecting since [] samples → samples ≠ [] → Outvotes cfg bad samples) :
    ∀ t ∈ view Task.fusion ts, ∀ since samples stats, t.before.task = .collecting since [] samples →
      samples ≠ [] → TrimmedStats.fromSamples exactTimes
        (selectBestPeers samples cfg.filter.bestQuantile) cfg.filter.trimRatio = some stats →
      low ≤ stats.meanOffsetNs ∧ stats.meanOffsetNs ≤ high := by
  have hlocal : (fusion cfg).Run (start.members .fusion) (view Task.fusion ts)
      (s.members .fusion) := run_view hrun .fusion
  intro t ht since samples stats htask hne hstats
  have hread := h.read hrun
  have hout := hvotes t ht since samples htask hne
  obtain ⟨front, back, hsplit⟩ := List.append_of_mem ht
  rw [hsplit] at hlocal hread
  have hbudget : WithinBudget cfg bad low high t.before.task :=
    run_withinBudget hidle hlocal.middle.1 fun u hu => hread u (List.mem_append_left _ hu)
  rw [htask] at hbudget
  exact (hbudget.trustworthy hout).mean_between hr hne hstats

/-- In every run what is fused stays in the band. -/
theorem Banded.bounded {store : Store} {ts : List (DaemonTurn cfg)} {s : DaemonState cfg}
    (h : Banded low high bad store ts) (hr : cfg.filter.trimRatio < 1 / 2)
    (hrun : (daemon parse cfg).toMachine.Run (Daemon.init cfg store) ts s)
    (hvotes : ∀ t ∈ view Task.fusion ts, ∀ since samples,
      t.before.task = .collecting since [] samples → samples ≠ [] → Outvotes cfg bad samples) :
    Bounded low high (events (view Task.fusion ts)) (s.members .fusion) := by
  have hlocal : (fusion cfg).Run (.init cfg) (view Task.fusion ts) (s.members .fusion) :=
    run_view hrun .fusion
  have hmedium : Banded low high bad (Daemon.init cfg store).medium ts := h
  exact run_bounded hlocal (hmedium.mean hr rfl hrun hvotes)

/-- Whatever is fused or commanded is in the band of the good sources, in every run of the daemon
whose iterations trim more samples on either side than there are bad sources. -/
theorem offsets_banded {store : Store} {ts : List (DaemonTurn cfg)} {s : DaemonState cfg}
    (hr : cfg.filter.trimRatio < 1 / 2)
    (hrun : (daemon parse cfg).toMachine.Run (Daemon.init cfg store) ts s)
    (hband : Banded low high bad store ts)
    (hvotes : ∀ t ∈ view Task.fusion ts, ∀ since samples,
      t.before.task = .collecting since [] samples → samples ≠ [] → Outvotes cfg bad samples) :
    (∀ f, ⟨.fusion, .fused f⟩ ∈ events ts →
      (low ≤ f.stats.meanOffsetNs ∧ f.stats.meanOffsetNs ≤ high) ∧
        (low ≤ f.smoothed ∧ f.smoothed ≤ high)) ∧
      ∀ x d c, ⟨.fusion, .slewed x d c⟩ ∈ events ts → low ≤ x ∧ x ≤ high := by
  have hlocal : (fusion cfg).Run (.init cfg) (view Task.fusion ts) (s.members .fusion) :=
    run_view hrun .fusion
  have hbounded := hband.bounded hr hrun hvotes
  constructor
  · intro f hf
    exact hbounded.fused f ((mem_events_view hrun).mpr hf)
  · intro x d c hslewed
    obtain ⟨f, hf, rfl⟩ := (run_asked hlocal).given x d c ((mem_events_view hrun).mpr hslewed)
    exact (hbounded.fused f hf).2

/-- What two servers have stored; the third has no offset yet. -/
def trioStore : Store
  | .ntp 11 .offset => [⟨980000000000, 3⟩]
  | .ntp 13 .offset => [⟨980000000000, 7⟩]
  | .ntp _ .delay => [⟨980000000000, 20⟩]
  | .ntp _ .jitter => [⟨980000000000, 2⟩]
  | _ => []

/-- An offset that is a second off. -/
def farOff : TsAdd :=
  { key := .ntp 12 .offset, tsNs := 980000000000, val := 1000000000, windowNs := 30000000000 }

def trioMoves : List (Move (Task.Action (n := trioConfig.ntpSources.length)) StoreDrift) :=
  .drift (.write farOff) :: trioIteration.map fun a : FusionAction => .member .fusion a

def trioTurns : List (DaemonTurn trioConfig) :=
  (daemon (fun _ _ => none) trioConfig).toMachine.turnsOf (Daemon.init trioConfig trioStore)
    trioMoves

private theorem trioMoves_run : ((daemon (fun _ _ => none) trioConfig).toMachine.exec
    (Daemon.init trioConfig trioStore) trioMoves).isSome = true := by
  decide +kernel

def isTwelve (src : Source) : Bool := src.id = 12

private theorem trioTurns_banded : Banded 0 10 isTwelve trioStore trioTurns := by
  have hstart : ∀ src ∈ sources trioConfig, isTwelve src = false → ∀ e ∈ trioStore src.offsetKey,
      0 ≤ e.val ∧ e.val ≤ 10 := by decide +kernel
  have hwritten : ∀ t ∈ trioTurns, ∀ w ∈ written t, w.key = .ntp 12 .offset := by decide +kernel
  have hkeys : ∀ src ∈ sources trioConfig, isTwelve src = false →
      src.offsetKey ≠ .ntp 12 .offset := by decide +kernel
  refine ⟨hstart, ?_⟩
  intro t ht w hw src hsrc hgood hkey
  exact absurd (hkey.symm.trans (hwritten t ht w hw)) (hkeys src hsrc hgood)

def isFused : FusionEvent → Bool
  | .fused _ => true
  | _ => false

theorem offsets_banded_trio :
    ∃ f, ⟨.fusion, .fused f⟩ ∈ events trioTurns ∧ 0 ≤ f.smoothed ∧ f.smoothed ≤ 10 := by
  have hvotes : ∀ t ∈ view Task.fusion trioTurns, ∀ samples ∈ t.before.task.collected?,
      (sources trioConfig).countP isTwelve ≤
        trimCount exactTimes (selectBestPeers samples trioConfig.filter.bestQuantile).length
          trioConfig.filter.trimRatio := by
    decide +kernel
  have hfuses : (events (view Task.fusion trioTurns)).any isFused = true := by decide +kernel
  have hrun := Run.of_actions trioMoves_run
  have hbanded := offsets_banded (by norm_num [trioConfig]) hrun trioTurns_banded
    fun t ht since samples htask _ => hvotes t ht samples (by rw [htask]; rfl)
  obtain ⟨e, he, hfused⟩ := List.any_eq_true.mp hfuses
  cases e with
  | fused f =>
    have hmem := (mem_events_view hrun).mp he
    exact ⟨f, hmem, (hbanded.1 f hmem).2⟩
  | _ => contradiction

end Zeitpeer
