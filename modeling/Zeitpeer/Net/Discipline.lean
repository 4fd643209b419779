import Zeitpeer.Net.Evidence
import Zeitpeer.Net.Writers

/-!
# Which clock is measured and which is set

The pollers compare the servers with the clock that `now_ns` reads, and the command that
follows sets CLOCK_REALTIME. With servers that are exact the command asks for the difference of
the two clocks, whatever it is: nothing between the reading and the command takes it out.
-/

namespace Zeitpeer

open Framework Machine Ensemble

variable {parse : String → UInt16 → Option SocketAddr} {cfg : Config} {ahead : Int}

/-- CLOCK_REALTIME shows UTC, and the clock that `now_ns` reads is ahead of it. -/
structure Steady (cfg : Config) (ahead : Int) (c : Clocks) (utc : UInt64) : Prop where
  realtime : c.gettime .realtime = some utc
  shifted : ∀ ns, nowNs cfg.phcDevice c = some ns → (ns.toNat : Int) = utc.toNat + ahead
  era : ∀ ns, nowNs cfg.phcDevice c = some ns → InEra ns

/-- A server with exact UTC over a symmetric path, for a request sent at `u1`. -/
def ExactServer (cfg : Config) (ahead : Int) (t1 u1 : UInt64) (resp : List UInt8) (c : Clocks) :
    Prop :=
  ∃ u2 u3 u4, Steady cfg ahead c u4 ∧ InEra u2 ∧ InEra u3 ∧ u1 ≤ u2 ∧ u2 ≤ u3 ∧ u3 ≤ u4 ∧
    u2 - u1 = u4 - u3 ∧ ExactReply t1 u2 u3 (resp.take NTP_PACKET_LEN)

/-- The turn happens with exact servers and a steady difference of the clocks, and nobody else
stores offsets. -/
def IdealTurn (ahead : Int) (t : DaemonTurn cfg) : Prop :=
  match t.action with
  | .member (.poller _) (.request c) => ∃ utc, Steady cfg ahead c utc
  | .member (.poller k) (.receive resp c) => ∀ t1 u1 : UInt64,
      (t.before.members (.poller k)).task = .exchanging t1 →
      (t1.toNat : Int) = u1.toNat + ahead → ExactServer cfg ahead t1 u1 resp c
  | .drift (.write w) => w.offset? = none
  | _ => True

/-- Minus the difference of the clocks, up to the rounding of the timestamps. -/
def Near (ahead : Int) (x : F64) : Prop := -(ahead : F64) - 1 ≤ x ∧ x ≤ -(ahead : F64) + 1

/-- What a poller has in hand is in step with the clocks. -/
def PollerInStep (ahead : Int) (task : PollerTask) : Prop :=
  OffsetsStored (Near ahead) task ∧
    ∀ t1, task = .exchanging t1 → InEra t1 ∧ ∃ u1 : UInt64, (t1.toNat : Int) = u1.toNat + ahead

private theorem ExactServer.near {t1 u1 : UInt64} {resp : List UInt8} {c : Clocks} {t4 : UInt64}
    {sample : NtpSample} (h : ExactServer cfg ahead t1 u1 resp c) (hera : InEra t1)
    (ht1 : (t1.toNat : Int) = u1.toNat + ahead) (ht4 : nowNs cfg.phcDevice c = some t4)
    (hsample : ntpSample t1 (resp.take NTP_PACKET_LEN) t4 = some sample) :
    Near ahead sample.offsetNs := by
  obtain ⟨u2, u3, u4, hsteady, hera2, hera3, h12, _, h34, hpath, hreply⟩ := h
  have hshift := hsteady.shifted t4 ht4
  have hsymmetric : (u2.toNat : Int) - (t1.toNat - ahead) = (t4.toNat - ahead) - u3.toNat := by
    have hnat := congrArg UInt64.toNat hpath
    rw [UInt64.toNat_sub_of_le _ _ h12, UInt64.toNat_sub_of_le _ _ h34] at hnat
    have hle12 := UInt64.le_iff_toNat_le.mp h12
    have hle34 := UInt64.le_iff_toNat_le.mp h34
    omega
  obtain ⟨sample', hsome, _, hlow, hhigh⟩ := ntpSample_offset hreply hera hera2 hera3 hsymmetric
  rw [hsample] at hsome
  obtain rfl := Option.some.inj hsome
  constructor
  · exact_mod_cast hlow
  · exact_mod_cast hhigh

private theorem PollerStep.inStep {src : NtpSource} {s s' : PollerState} {a : PollerAction}
    {es : List PollerEvent} (hstep : PollerStep cfg src s a s' es)
    (h : PollerInStep ahead s.task) (hrequest : ∀ c, a = .request c → ∃ utc, Steady cfg ahead c utc)
    (hreceive : ∀ resp c, a = .receive resp c → ∀ t1 u1 : UInt64, s.task = .exchanging t1 →
      (t1.toNat : Int) = u1.toNat + ahead → ExactServer cfg ahead t1 u1 resp c) :
    PollerInStep ahead s'.task ∧ ∀ w x, .tsAdd w ∈ es → w.offset? = some x → Near ahead x := by
  have hsampled : ∀ m, .sampled m ∈ es → Near ahead m.sample.offsetNs := by
    intro m hm
    cases hstep with
    | @sampled resp c t1 t4 sample htask hlen hclock hsample =>
      obtain rfl := PollerEvent.sampled.inj (List.mem_singleton.mp hm)
      obtain ⟨hera, u1, ht1⟩ := h.2 t1 htask
      exact (hreceive resp c rfl t1 u1 htask ht1).near hera ht1 hclock hsample
    | request
    | tsAdd
    | hmSet => simp at hm
    | _ => exact absurd hm List.not_mem_nil
  obtain ⟨hstored, hwritten⟩ := hstep.offsets h.1 hsampled
  refine ⟨⟨hstored, ?_⟩, hwritten⟩
  intro t1 htask'
  cases hstep with
  | unread
  | skipped => exact h.2 t1 htask'
  | request c htask hclock =>
    obtain rfl := PollerTask.exchanging.inj htask'
    obtain ⟨utc, hsteady⟩ := hrequest c rfl
    exact ⟨hsteady.era _ hclock, utc, hsteady.shifted _ hclock⟩
  | compare others htask =>
    simp only [withMean, withResult] at htask'
    split at htask' <;> contradiction
  | ping ms htask =>
    simp only [withPing, withResult] at htask'
    split at htask' <;> contradiction
  | _ => contradiction

/-- Every offset that the loop holds is near, and the sources are the servers. -/
def LoopInStep (cfg : Config) (ahead : Int) : FusionTask → Prop
  | .collecting _ todo samples => (∀ src ∈ todo, src ∈ sources cfg) ∧
      ∀ s ∈ samples, Near ahead s.offsetMedianNs
  | .delays _ _ offsets todo samples | .jitters _ _ offsets _ todo samples =>
      (∀ src ∈ todo, src ∈ sources cfg) ∧ (∀ s ∈ samples, Near ahead s.offsetMedianNs) ∧
      offsets ≠ [] ∧ ∀ x ∈ offsets, Near ahead x.2
  | .publishing effects => ∀ w, .tsAdd w ∈ effects → w.offset? = none
  | _ => True

private theorem publishEffects_offset {ts : UInt64} {f : Fused} {ring : Ring}
    {samples : List PeerSample}
    {w : TsAdd} (hw : .tsAdd w ∈ publishEffects cfg ts f ring samples) : w.offset? = none := by
  rcases mem_publishEffects hw with ⟨metric, val, hw⟩ | ⟨_, hw⟩ | hw | ⟨h, hw⟩
  · obtain rfl := Effect.tsAdd.inj hw
    rfl
  all_goals contradiction

private theorem loopInStep_afterEffects {e : Effect} {rest : List Effect}
    (h : LoopInStep cfg ahead (.publishing (e :: rest))) :
    LoopInStep cfg ahead (afterEffects rest) := by
  cases rest with
  | nil => trivial
  | cons e' rest => exact fun w hw => h w (List.mem_cons_of_mem _ hw)

private theorem FusionStep.inStep {s s' : FusionState} {a : FusionAction} {es : List FusionEvent}
    (hstep : FusionStep cfg s a s' es) (h : LoopInStep cfg ahead s.task)
    (hreply : ∀ src ∈ sources cfg, ∀ since limit entries,
      a = .recent src.offsetKey since limit (some entries) → ∀ e ∈ entries, Near ahead e.val) :
    LoopInStep cfg ahead s'.task := by
  cases hstep with
  | skip now hidle => exact h
  | tick now hidle hpeers => exact ⟨fun src hsrc => hsrc, by simp⟩
  | sparse htask hfew =>
    rw [htask] at h
    exact ⟨fun src hsrc => h.1 src (List.mem_cons_of_mem _ hsrc), h.2⟩
  | @enough since src todo samples entries htask hmany =>
    rw [htask] at h
    have hpos := readLimit_pos cfg
    have hnear := hreply src (h.1 src List.mem_cons_self) since _ entries rfl
    refine ⟨fun src hsrc => h.1 src (List.mem_cons_of_mem _ hsrc), h.2, ?_, ?_⟩
    · apply List.ne_nil_of_length_pos
      rw [List.length_map]
      omega
    · intro x hx
      obtain ⟨e, he, rfl⟩ := List.mem_map.mp hx
      exact hnear e he
  | delays entries htask =>
    rw [htask] at h
    exact h
  | @jitters since src offsets delays todo samples entries htask =>
    rw [htask] at h
    obtain ⟨htodo, hsamples, hne, hoffsets⟩ := h
    refine ⟨htodo, ?_⟩
    intro sample hsample
    rcases List.mem_append.mp hsample with hsample | hsample
    · exact hsamples sample hsample
    · obtain rfl := List.mem_singleton.mp hsample
      have hvalues : ∀ v ∈ offsets.map Prod.snd, Near ahead v := by
        intro v hv
        obtain ⟨x, hx, rfl⟩ := List.mem_map.mp hv
        exact hoffsets x hx
      obtain ⟨median, hmedian, hlow, hhigh⟩ :=
        robustMedian_between (by simpa using hne) hvalues
      simp only [PeerSample.fromSeries, hmedian, Option.getD_some]
      exact ⟨hlow, hhigh⟩
  | fuse ts htask hfuse => exact fun w hw => publishEffects_offset hw
  | tsAdd htask
  | slew htask
  | hmSet htask
  | phcAbsent htask =>
    rw [htask] at h
    exact loopInStep_afterEffects h
  | @phcRead c c' ts smoothed rest offset htask =>
    rw [htask] at h
    intro w hw
    rcases mem_phcEffects hw with ⟨metric, val, hw⟩ | hw
    · obtain rfl := Effect.tsAdd.inj hw
      rfl
    · exact h w (List.mem_cons_of_mem _ hw)
  | _ => trivial

private theorem near_mean {filter : FilterCfg} {samples : List PeerSample} {stats : TrimmedStats}
    (hsamples : ∀ s ∈ samples, Near ahead s.offsetMedianNs)
    (hstats : TrimmedStats.fromSamples exactTimes (selectBestPeers samples filter.bestQuantile)
      filter.trimRatio = some stats) : Near ahead stats.meanOffsetNs := by
  obtain ⟨hkept, hsub, hmean, _⟩ := TrimmedStats.fromSamples_kept hstats
  rw [hmean]
  apply keptMean_between hkept
  intro s hs
  exact hsamples s (mem_of_mem_selectBestPeers (hsub s hs))

/-- The offsets of the commands, given and to be given, are smoothed values of the history. -/
structure Asked (es : List FusionEvent) (task : FusionTask) : Prop where
  pending : ∀ effects, task = .publishing effects → ∀ x d, .slew x d ∈ effects →
    ∃ f, .fused f ∈ es ∧ f.smoothed = x
  given : ∀ x d c, .slewed x d c ∈ es → ∃ f, .fused f ∈ es ∧ f.smoothed = x

private theorem publishEffects_slew {ts : UInt64} {f : Fused} {ring : Ring}
    {samples : List PeerSample}
    {x d : F64} (hslew : .slew x d ∈ publishEffects cfg ts f ring samples) : f.smoothed = x := by
  rcases mem_publishEffects hslew with ⟨metric, val, hslew⟩ | ⟨_, hslew⟩ | hslew | ⟨h, hslew⟩
  case inr.inl =>
    obtain ⟨rfl, _⟩ := Effect.slew.inj hslew
    rfl
  all_goals contradiction

private theorem Asked.extend {es fs : List FusionEvent} {task task' : FusionTask}
    (h : Asked es task)
    (hpending : ∀ effects, task' = .publishing effects → ∀ x d, .slew x d ∈ effects →
      ∃ f, .fused f ∈ es ++ fs ∧ f.smoothed = x)
    (hgiven : ∀ x d c, .slewed x d c ∈ fs → ∃ f, .fused f ∈ es ∧ f.smoothed = x) :
    Asked (es ++ fs) task' := by
  refine ⟨hpending, ?_⟩
  intro x d c hmem
  have hold : ∃ f, .fused f ∈ es ∧ f.smoothed = x := by
    rcases List.mem_append.mp hmem with hmem | hmem
    · exact h.given x d c hmem
    · exact hgiven x d c hmem
  obtain ⟨f, hf, hx⟩ := hold
  exact ⟨f, List.mem_append_left fs hf, hx⟩

private theorem FusionStep.asked {es fs : List FusionEvent} {s s' : FusionState} {a : FusionAction}
    (hstep : FusionStep cfg s a s' fs) (h : Asked es s.task) : Asked (es ++ fs) s'.task := by
  have hrest : ∀ {e rest}, s.task = .publishing (e :: rest) → ∀ {fs} effects,
      afterEffects rest = .publishing effects → ∀ x d, .slew x d ∈ effects →
        ∃ f, .fused f ∈ es ++ fs ∧ f.smoothed = x := by
    intro e rest htask fs effects hafter x d hslew
    cases rest with
    | nil => contradiction
    | cons e' rest =>
      obtain rfl := FusionTask.publishing.inj hafter
      obtain ⟨f, hf, hx⟩ := h.pending _ htask x d (List.mem_cons_of_mem e hslew)
      exact ⟨f, List.mem_append_left fs hf, hx⟩
  cases hstep with
  | skip now hidle => exact h.extend (by simp [hidle]) (by simp)
  | fuse ts htask hfuse =>
    apply h.extend
    · intro effects heffects x d hslew
      obtain rfl := FusionTask.publishing.inj heffects
      exact ⟨_, List.mem_append_right es (List.mem_singleton_self _),
        publishEffects_slew hslew⟩
    · simp
  | tsAdd htask
  | hmSet htask
  | phcAbsent htask => exact h.extend (hrest htask) (by simp)
  | @slew offset drift rest htask =>
    apply h.extend (hrest htask)
    intro x d c hmem
    obtain ⟨rfl, _⟩ := FusionEvent.slewed.inj (List.mem_singleton.mp hmem)
    exact h.pending _ htask x drift List.mem_cons_self
  | @phcRead c c' ts smoothed rest offset htask =>
    apply h.extend
    · intro effects heffects x d hslew
      obtain rfl := FusionTask.publishing.inj heffects
      rcases mem_phcEffects hslew with ⟨_, _, hslew⟩ | hslew
      · contradiction
      · obtain ⟨f, hf, hx⟩ := h.pending _ htask x d (List.mem_cons_of_mem _ hslew)
        exact ⟨f, List.mem_append_left _ hf, hx⟩
    · simp
  | _ => exact h.extend (by simp) (by simp)

theorem run_asked {ts : List FusionTurn} {s : FusionState}
    (hrun : (fusion cfg).Run (.init cfg) ts s) : Asked (events ts) s.task := by
  induction hrun with
  | start => exact ⟨by simp [FusionState.init], by simp⟩
  | turn _ hstep ih =>
    rw [events_append, events_singleton]
    exact (FusionStep.of_step hstep).asked ih

/-! ## The daemon -/

/-- Everything that the daemon knows about offsets is near. -/
structure InStep (ahead : Int) (s : DaemonState cfg) : Prop where
  store : ∀ id e, e ∈ s.medium (.ntp id .offset) → Near ahead e.val
  pollers : ∀ k, PollerInStep ahead (s.members (.poller k)).task
  loop : LoopInStep cfg ahead (s.members .fusion).task

private theorem source_ntp (hpeers : ∀ p ∈ cfg.peers, p.id = cfg.nodeId) {src : Source}
    (hsrc : src ∈ sources cfg) : ∃ id, src.offsetKey = .ntp id .offset := by
  rcases List.mem_append.mp hsrc with hsrc | hsrc
  · obtain ⟨p, hp, _⟩ := List.mem_map.mp hsrc
    obtain ⟨hp, hother⟩ := List.mem_filter.mp hp
    exact absurd (hpeers p hp) (of_decide_eq_true hother)
  · obtain ⟨n, _, rfl⟩ := List.mem_map.mp hsrc
    exact ⟨n.id, rfl⟩

private theorem offset_of_key {w : TsAdd} {id : UInt32} (hkey : w.key = .ntp id .offset) :
    w.offset? = some w.val := by
  simp [TsAdd.offset?, hkey]

private theorem near_absorb {n : Nat} {store : Store} {i : Task n} {es : List i.Event}
    (hstore : ∀ id e, e ∈ store (.ntp id .offset) → Near ahead e.val)
    (hwrites : ∀ x ∈ es, ∀ w id, i.write? x = some w → w.key = .ntp id .offset →
      Near ahead w.val) :
    ∀ id e, e ∈ i.absorb store es (.ntp id .offset) → Near ahead e.val := by
  intro id e he
  rcases mem_absorb he with hold | ⟨x, hx, w, hwrite, hkey, hval⟩
  · exact hstore id e hold
  · rw [hval]
    exact hwrites x hx w id hwrite hkey.symm

private theorem loop_turn (hpeers : ∀ p ∈ cfg.peers, p.id = cfg.nodeId)
    {s s' : DaemonState cfg} {a : FusionAction} {es : List (Sigma Task.Event)}
    (hstep : (daemon parse cfg).toMachine.step s (.member .fusion a) = some (s', es))
    (h : InStep ahead s) : LoopInStep cfg ahead (s'.members .fusion).task := by
  have hread := hstep
  obtain ⟨next, fs, _, hlocal, rfl, rfl⟩ := step_member hstep
  refine (FusionStep.of_step hlocal).inStep h.loop ?_
  rintro src hsrc since limit entries rfl e he
  obtain ⟨id, hkey⟩ := source_ntp hpeers hsrc
  have hmem := ((read_answered hread).mem he).1
  rw [hkey] at hmem
  exact h.store id e hmem

private theorem poller_turn {s : DaemonState cfg} {k : Fin cfg.ntpSources.length}
    {a : PollerAction} {p : PollerState} {fs : List PollerEvent} {es : List (Sigma Task.Event)}
    {s' : DaemonState cfg}
    (hlocal : (poller cfg (cfg.ntpSources.get k)).step (s.members (.poller k)) a = some (p, fs))
    (hideal : IdealTurn ahead ⟨s, .member (.poller k) a, es, s'⟩) (h : InStep ahead s) :
    PollerInStep ahead p.task ∧ ∀ w x, .tsAdd w ∈ fs → w.offset? = some x → Near ahead x := by
  refine (PollerStep.of_step hlocal).inStep (h.pollers k) ?_ ?_
  · rintro c rfl
    exact hideal
  · rintro resp c rfl
    exact hideal

private theorem inStep_turn (hpeers : ∀ p ∈ cfg.peers, p.id = cfg.nodeId) {store : Store}
    {ts : List (DaemonTurn cfg)} {s s' : DaemonState cfg} {m : Move Task.Action StoreDrift}
    {es : List (Sigma Task.Event)}
    (hrun : (daemon parse cfg).toMachine.Run (Daemon.init cfg store) ts s)
    (hstep : (daemon parse cfg).toMachine.step s m = some (s', es))
    (hideal : IdealTurn ahead ⟨s, m, es, s'⟩) (h : InStep ahead s) : InStep ahead s' := by
  have hafter := hrun.turn hstep
  cases m with
  | drift d =>
    obtain ⟨medium, hdrift, rfl, rfl⟩ := step_drift hstep
    refine ⟨?_, h.pollers, h.loop⟩
    intro id e he
    rcases mem_drift hdrift he with hold | ⟨w, rfl, hkey, _⟩
    · exact h.store id e hold
    · have hnone : w.offset? = none := hideal
      rw [offset_of_key hkey.symm] at hnone
      contradiction
  | member i a =>
    have hmember := hstep
    obtain ⟨next, fs, _, hlocal, rfl, rfl⟩ := step_member hstep
    -- only a poller has the servers' offsets to write
    have hforeign : (∀ id, Task.owns cfg i (.ntp id .offset) ≠ true) → ∀ x ∈ fs, ∀ w id,
        i.write? x = some w → w.key = .ntp id .offset → Near ahead w.val := by
      intro hnot x hx w id hwrite hkey
      have howns := run_owns hafter (mem_events_last (List.mem_map_of_mem hx)) hwrite
      rw [hkey] at howns
      exact absurd howns (hnot id)
    cases i with
    | node =>
      refine ⟨near_absorb h.store (hforeign ?_), h.pollers, h.loop⟩
      exact fun id => Bool.false_ne_true
    | fusion =>
      refine ⟨near_absorb h.store (hforeign ?_), h.pollers, loop_turn hpeers hmember h⟩
      exact fun id => Bool.false_ne_true
    | poller k =>
      obtain ⟨hpoller, hwrites⟩ := poller_turn hlocal hideal h
      refine ⟨near_absorb h.store ?_, ?_, h.loop⟩
      · intro x hx w id hwrite hkey
        cases x with
        | tsAdd w' =>
          obtain rfl := Option.some.inj hwrite
          exact hwrites w' w'.val hx (offset_of_key hkey)
        | _ => contradiction
      · intro j
        by_cases hjk : j = k
        · subst hjk
          simpa using hpoller
        · have hother : Task.poller j ≠ Task.poller k := by simpa using hjk
          simpa [Function.update_of_ne hother] using h.pollers j

theorem run_inStep (hpeers : ∀ p ∈ cfg.peers, p.id = cfg.nodeId) {store : Store}
    (hstore : ∀ id e, e ∈ store (.ntp id .offset) → Near ahead e.val)
    {ts : List (DaemonTurn cfg)} {s : DaemonState cfg}
    (hrun : (daemon parse cfg).toMachine.Run (Daemon.init cfg store) ts s)
    (hideal : ∀ t ∈ ts, IdealTurn ahead t) : InStep ahead s := by
  refine hrun.invariant_of (P := IdealTurn ahead) (I := fun _ s => InStep ahead s) ?_ ?_ hideal
  · refine ⟨hstore, fun k => ⟨trivial, ?_⟩, trivial⟩
    intro t1 htask
    contradiction
  · intro ts s a s' es hbefore h hstep hturn
    exact inStep_turn hpeers hbefore hstep hturn h

/-- With exact servers every command asks for minus the difference between the clock that is
measured and the clock that is set. It asks for nothing, up to rounding, if the two agree, and
for more than that if they do not. The store may hold what earlier runs have left there. -/
theorem command_offset (hpeers : ∀ p ∈ cfg.peers, p.id = cfg.nodeId) {store : Store}
    (hstore : ∀ id e, e ∈ store (.ntp id .offset) → Near ahead e.val)
    {ts : List (DaemonTurn cfg)} {s : DaemonState cfg}
    (hrun : (daemon parse cfg).toMachine.Run (Daemon.init cfg store) ts s)
    (hideal : ∀ t ∈ ts, IdealTurn ahead t) {x d : F64} {c : Timex}
    (hslewed : ⟨.fusion, .slewed x d c⟩ ∈ events ts) :
    |x + ahead| ≤ 1 ∧ (ahead = 0 → |x| ≤ 1) ∧ (2 < |ahead| → 1 < |x|) := by
  have hlocal : (fusion cfg).Run (.init cfg) (view Task.fusion ts) (s.members .fusion) :=
    run_view hrun .fusion
  have hmean : ∀ t : FusionTurn, t ∈ view Task.fusion ts → ∀ since samples stats,
      t.before.task = .collecting since [] samples → samples ≠ [] →
      TrimmedStats.fromSamples exactTimes (selectBestPeers samples cfg.filter.bestQuantile)
        cfg.filter.trimRatio = some stats → Near ahead stats.meanOffsetNs := by
    intro t ht since samples stats htask _ hstats
    obtain ⟨u, hu, _, hbefore⟩ := mem_view ht
    obtain ⟨front, back, rfl⟩ := List.append_of_mem hu
    have hloop := (run_inStep hpeers hstore hrun.middle.1
      fun v hv => hideal v (List.mem_append_left _ hv)).loop
    rw [hbefore, htask] at hloop
    exact near_mean hloop.2 hstats
  have hmem : .slewed x d c ∈ events (view Task.fusion ts) := (mem_events_view hrun).mpr hslewed
  obtain ⟨f, hf, rfl⟩ := (run_asked hlocal).given x d c hmem
  obtain ⟨hlow, hhigh⟩ := ((run_bounded hlocal hmean).fused f hf).2
  have hnear : |f.smoothed + ahead| ≤ 1 := by
    rw [abs_le]
    constructor <;> linarith
  refine ⟨hnear, ?_, ?_⟩
  · intro hzero
    simpa [hzero] using hnear
  · intro hfar
    have hfar' : (2 : F64) < |(ahead : F64)| := by exact_mod_cast hfar
    have htriangle : |(ahead : F64)| ≤ |f.smoothed + ahead| + |f.smoothed| := by
      have hsum := abs_sub (f.smoothed + ahead) f.smoothed
      rwa [add_sub_cancel_left] at hsum
    linarith

/-- UTC when the request goes out. -/
def requestUtc : UInt64 := 1700000000000000000

/-- The clocks of a node without a hardware clock, with the offset of TAI that its kernel has. -/
def taiClocks (utc tai : UInt64) : Clocks :=
  { opens := false
    gettime := fun
      | .realtime => some utc
      | .tai => some (utc + tai)
      | .phc => none }

/-- The answer of an exact server a microsecond away. -/
def exactReply (tai : UInt64) : List UInt8 :=
  [0b00100100, 1] ++ List.replicate 22 0 ++ encodeNtpTimestamp (requestUtc + tai) ++
    encodeNtpTimestamp (requestUtc + 1000) ++ encodeNtpTimestamp (requestUtc + 2000)

def exchangeActions (tai : UInt64) : List PollerAction :=
  [.request (taiClocks requestUtc tai),
    .receive (exactReply tai) (taiClocks (requestUtc + 3000) tai)]

def storeActions (tai : UInt64) : List PollerAction :=
  List.replicate 5 .publish ++ [.systemNow (taiClocks (requestUtc + 3000) tai)] ++
    List.replicate 2 .publish ++ [.compare [], .ping none, .publish]

/-- An iteration that reads what the poll has stored. -/
def polledIteration (tai : UInt64) (offset : F64) (now : UInt64) (writes : Nat) :
    List FusionAction :=
  let read := fun metric val => FusionAction.recent (.ntp 11 metric) (now - 30000000000) 1
    (some [⟨roundToF64 (requestUtc + 3000 + tai).toNat, val⟩])
  [.tick now, read .offset offset, read .delay 2000, read .jitter 0, .fuse now] ++
    List.replicate writes .publish ++ [.phcOffset .unreadable .unreadable] ++
    List.replicate 3 .publish

abbrev ControlMove := Move (Task.Action (n := controlConfig.ntpSources.length)) StoreDrift

def serverTask : Fin controlConfig.ntpSources.length := ⟨0, by decide⟩

def restActions (tai : UInt64) (offset : F64) : List ControlMove :=
  (storeActions tai).map (fun a : PollerAction => .member (.poller serverTask) a) ++
    (polledIteration tai offset (requestUtc + 1000000000) 3 ++
      polledIteration tai offset (requestUtc + 2000000000) 3 ++
      polledIteration tai offset (requestUtc + 3000000000) 5).map
        fun a : FusionAction => .member .fusion a

def emptyStore : Store := fun _ => []

/-- One poll and three iterations, the last of which commands the clock. -/
def polledActions (tai : UInt64) (offset : F64) : List ControlMove :=
  (exchangeActions tai).map (fun a : PollerAction => .member (.poller serverTask) a) ++
    restActions tai offset

def polledTurns (tai : UInt64) (offset : F64) : List (DaemonTurn controlConfig) :=
  (daemon (fun _ _ => none) controlConfig).toMachine.turnsOf
    (Daemon.init controlConfig emptyStore) (polledActions tai offset)

/-- The two cases that are run: the kernel's TAI offset is unset, or it is the current one. -/
def TaiCase (tai : UInt64) (offset : F64) : Prop :=
  tai = 0 ∧ offset = -1 ∨ tai = 37000000000 ∧ offset = -37000000001

private theorem polledTurns_run {tai : UInt64} {offset : F64} (h : TaiCase tai offset) :
    ∃ s, (daemon (fun _ _ => none) controlConfig).toMachine.Run
      (Daemon.init controlConfig emptyStore) (polledTurns tai offset) s := by
  have hexec : ((daemon (fun _ _ => none) controlConfig).toMachine.exec
      (Daemon.init controlConfig emptyStore) (polledActions tai offset)).isSome = true := by
    rcases h with ⟨rfl, rfl⟩ | ⟨rfl, rfl⟩ <;> decide +kernel
  exact ⟨_, Run.of_actions hexec⟩

private theorem steady_tai {tai utc : UInt64} (hsum : (utc + tai).toNat = utc.toNat + tai.toNat)
    (hera : InEra (utc + tai)) :
    Steady controlConfig (tai.toNat : Int) (taiClocks utc tai) utc := by
  have htai : nowNs controlConfig.phcDevice (taiClocks utc tai) = some (utc + tai) :=
    nowNs_tai rfl rfl
  refine ⟨rfl, ?_, ?_⟩
  · intro ns hns
    rw [htai] at hns
    obtain rfl := Option.some.inj hns
    exact_mod_cast hsum
  · intro ns hns
    rw [htai] at hns
    obtain rfl := Option.some.inj hns
    exact hera

/-- The response comes in while the request is the one that the reply is about. -/
def exchangesAt (t1 : UInt64) (t : DaemonTurn controlConfig) : Bool :=
  match t.action with
  | .member (.poller k) (.receive _ _) =>
    decide ((t.before.members (.poller k)).task = .exchanging t1)
  | _ => true

private theorem polledTurns_exchange {tai : UInt64} {offset : F64} (h : TaiCase tai offset) :
    ∀ t ∈ polledTurns tai offset, exchangesAt (requestUtc + tai) t = true := by
  have hall : (polledTurns tai offset).all (exchangesAt (requestUtc + tai)) = true := by
    rcases h with ⟨rfl, rfl⟩ | ⟨rfl, rfl⟩ <;> decide +kernel
  exact List.all_eq_true.mp hall

/-- The action is no part of an exchange, and no write of another process. -/
def isOrdinary : ControlMove → Bool
  | .member (.poller _) (.request _) => false
  | .member (.poller _) (.receive _ _) => false
  | .drift (.write _) => false
  | _ => true

private theorem idealTurn_ordinary {t : DaemonTurn controlConfig} (h : isOrdinary t.action = true) :
    IdealTurn ahead t := by
  unfold IdealTurn
  split
  all_goals first
    | trivial
    | simp_all [isOrdinary]

private theorem polledTurns_ideal {tai : UInt64} {offset : F64} (h : TaiCase tai offset) :
    ∀ t ∈ polledTurns tai offset, IdealTurn (tai.toNat : Int) t := by
  have hordinary : (restActions tai offset).all isOrdinary = true := by
    rcases h with ⟨rfl, rfl⟩ | ⟨rfl, rfl⟩ <;> rfl
  have hsteady : Steady controlConfig (tai.toNat : Int) (taiClocks requestUtc tai) requestUtc ∧
      Steady controlConfig (tai.toNat : Int) (taiClocks (requestUtc + 3000) tai)
        (requestUtc + 3000) := by
    constructor <;> apply steady_tai <;> rcases h with ⟨rfl, rfl⟩ | ⟨rfl, rfl⟩ <;> decide
  have hreply : ExactReply (requestUtc + tai) (requestUtc + 1000) (requestUtc + 2000)
      ((exactReply tai).take NTP_PACKET_LEN) := by
    rcases h with ⟨rfl, rfl⟩ | ⟨rfl, rfl⟩
    all_goals refine ⟨.inl ?_, ?_, ?_⟩ <;> decide +kernel
  intro t ht
  have haction : t.action ∈ polledActions tai offset := action_mem_of_turnsOf ht
  have hexchange := polledTurns_exchange h t ht
  rcases List.mem_append.mp haction with haction | haction
  · simp only [exchangeActions, List.map_cons, List.map_nil, List.mem_cons, List.not_mem_nil,
      or_false] at haction
    rcases haction with haction | haction
    · simp only [IdealTurn, haction]
      exact ⟨requestUtc, hsteady.1⟩
    · simp only [exchangesAt, haction, decide_eq_true_eq] at hexchange
      simp only [IdealTurn, haction]
      intro t1 u1 htask ht1
      rw [hexchange] at htask
      obtain rfl := PollerTask.exchanging.inj htask
      have hsum : (requestUtc + tai).toNat = requestUtc.toNat + tai.toNat := by
        rcases h with ⟨rfl, _⟩ | ⟨rfl, _⟩ <;> decide
      have hu1 : u1 = requestUtc := by
        apply UInt64.toNat_inj.mp
        omega
      subst hu1
      exact ⟨requestUtc + 1000, requestUtc + 2000, requestUtc + 3000, hsteady.2, by decide,
        by decide, by decide, by decide, by decide, by decide, hreply⟩
  · exact idealTurn_ordinary (List.all_eq_true.mp hordinary _ haction)

private theorem controlConfig_alone : ∀ p ∈ controlConfig.peers, p.id = controlConfig.nodeId := by
  decide

private theorem polledTurns_command {tai : UInt64} {offset : F64} (h : TaiCase tai offset) :
    ∃ d c, ⟨.fusion, .slewed offset d c⟩ ∈ events (polledTurns tai offset) := by
  have hlocal : .slewed offset 0 (slewApply offset 0) ∈
      events (view Task.fusion (polledTurns tai offset)) := by
    rcases h with ⟨rfl, rfl⟩ | ⟨rfl, rfl⟩ <;> decide +kernel
  obtain ⟨s, hrun⟩ := polledTurns_run h
  exact ⟨0, slewApply offset 0, (mem_events_view hrun).mp hlocal⟩

/-- Where the kernel's TAI offset is unset, the two clocks agree. -/
theorem command_offset_unset :
    ∃ x d c, ⟨.fusion, .slewed x d c⟩ ∈ events (polledTurns 0 (-1)) ∧ |x| ≤ 1 := by
  have hcase : TaiCase 0 (-1) := .inl ⟨rfl, rfl⟩
  obtain ⟨s, hrun⟩ := polledTurns_run hcase
  obtain ⟨d, c, hmem⟩ := polledTurns_command hcase
  have hoffset := command_offset controlConfig_alone (by simp [emptyStore]) hrun
    (polledTurns_ideal hcase) hmem
  exact ⟨_, d, c, hmem, hoffset.2.1 rfl⟩

/-- Where it is the current one, a node whose clock is right is told to move it by 37 s. -/
theorem command_of_tai :
    controls controlConfig = true ∧ (∀ p ∈ controlConfig.peers, p.id = controlConfig.nodeId) ∧
      (∃ s, (daemon (fun _ _ => none) controlConfig).toMachine.Run
        (Daemon.init controlConfig emptyStore) (polledTurns 37000000000 (-37000000001)) s) ∧
      (∀ t ∈ polledTurns 37000000000 (-37000000001), IdealTurn 37000000000 t) ∧
      ∃ d c, ⟨.fusion, .slewed (-37000000001) d c⟩ ∈
        events (polledTurns 37000000000 (-37000000001)) := by
  have hcase : TaiCase 37000000000 (-37000000001) := .inr ⟨rfl, rfl⟩
  exact ⟨rfl, controlConfig_alone, polledTurns_run hcase, polledTurns_ideal hcase,
    polledTurns_command hcase⟩

end Zeitpeer
