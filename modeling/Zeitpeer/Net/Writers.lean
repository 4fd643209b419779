import Zeitpeer.Net.Daemon
import Zeitpeer.Net.Provenance

/-!
# Who writes which series

Every task of a daemon keeps to the series that are its own: the node to those of the peers, a
poller to those under its server's number, and the fusion loop to those it publishes.
-/

namespace Zeitpeer

open Framework Machine Ensemble

variable {parse : String → UInt16 → Option SocketAddr} {cfg : Config}

/-- What a turn stores. -/
def storedBy {n : Nat} (es : List (Sigma (Task.Event (n := n)))) : List TsAdd :=
  es.filterMap fun e => e.1.write? e.2

theorem storedBy_map {n : Nat} (i : Task n) (es : List i.Event) :
    storedBy (es.map (Sigma.mk i)) = es.filterMap i.write? := by
  rw [storedBy, List.filterMap_map]
  rfl

/-- The series that a task may write. -/
def Task.owns (cfg : Config) : TaskOf cfg → SeriesKey → Bool
  | .node, .peer _ _ => true
  | .fusion, .fused _ => true
  | .fusion, .phc _ => true
  | .poller k, .ntp id _ => id = (cfg.ntpSources.get k).id
  | _, _ => false

/-- Every write of the node is about another peer of the configuration, except that of its own
latency. -/
theorem run_peerKeys {ts : List NodeTurn} {s : NodeState} (hrun : (node parse cfg).Run {} ts s)
    {w : TsAdd} {c : Cause} (hmem : .tsAdd w c ∈ events ts) :
    w.key = .peer cfg.nodeId .serviceLatency ∨
      ∃ p ∈ cfg.peers, p.id ≠ cfg.nodeId ∧ ∃ metric, w.key = .peer p.id metric := by
  have hpeer : ∀ {t : Token}, Probed cfg parse (events ts) t →
      ∃ p ∈ cfg.peers, p.id ≠ cfg.nodeId ∧ t.2.peerId = p.id := by
    rintro t ⟨probe, _, htarget, htoken⟩
    obtain ⟨p, hp, addr, _, htarget⟩ := mem_probeTargets htarget
    have hid : t.2.peerId = probe.target.peerId := congrArg (fun t : Token => t.2.peerId) htoken
    obtain ⟨hp, hother⟩ := List.mem_filter.mp hp
    exact ⟨p, hp, of_decide_eq_true hother, hid.trans (congrArg Target.peerId htarget)⟩
  have horigin := (run_backed hrun).writes w c hmem
  cases c with
  | reply e =>
    obtain ⟨hmatched, jitter, hw⟩ := horigin
    obtain ⟨metric, hkey⟩ := sampleWrites_key hw
    obtain ⟨p, hp, hother, hid⟩ := hpeer (hmatched.probed hrun)
    have hserver : e.resp.serverId = p.id := hmatched.server.symm.trans hid
    exact .inr ⟨p, hp, hother, metric, by rw [hkey, hserver]⟩
  | expiry t =>
    obtain ⟨sys, rfl⟩ := horigin
    have htimedOut : t ∈ tally Event.timedOut? (events ts) := mem_tally.mpr ⟨_, hmem, rfl⟩
    have hinserted := inserted_of_place hrun (t := t) (by
      simp only [Multiset.mem_add]
      exact .inl (.inr htimedOut))
    obtain ⟨p, hp, hother, hid⟩ := hpeer ((run_sourced hrun).inserted t hinserted)
    exact .inr ⟨p, hp, hother, .timeouts, by rw [timeoutWrite, hid]⟩
  | service => exact .inl horigin

/-- A write of the loop: a fused value, or one that a hardware clock adds. -/
inductive FusionWrite (cfg : Config) : TsAdd → Prop where
  | fused (metric : FusedMetric) (ts : UInt64) (val : F64) :
      FusionWrite cfg
        { key := .fused metric, tsNs := ts, val := val, windowNs := cfg.windowNs }
  | phc (metric : PhcMetric) (ts : UInt64) (val : F64) :
      FusionWrite cfg { key := .phc metric, tsNs := ts, val := val, windowNs := cfg.windowNs }

/-- What the loop has to publish are writes of the loop. -/
def Publishes (cfg : Config) : FusionTask → Prop
  | .publishing effects => ∀ w, .tsAdd w ∈ effects → FusionWrite cfg w
  | _ => True

private theorem publishes_iff {task : FusionTask} :
    Publishes cfg task ↔ ∀ w, .tsAdd w ∈ task.effects → FusionWrite cfg w := by
  cases task <;> simp [Publishes, FusionTask.effects]

private theorem FusionStep.publishes {s s' : FusionState} {a : FusionAction} {es : List FusionEvent}
    (hstep : FusionStep cfg s a s' es) (h : Publishes cfg s.task) :
    Publishes cfg s'.task ∧ ∀ w, .tsAdd w ∈ es → FusionWrite cfg w := by
  rw [publishes_iff] at h ⊢
  refine ⟨?_, fun w hw => h w (hstep.published.1 w hw)⟩
  intro w hw
  cases hstep.origin hw with
  | pending he => exact h w he
  | clock metric ts val => exact .phc metric ts val
  | fused ts _ _ he =>
    rcases mem_publishEffects he with ⟨metric, val, he⟩ | ⟨_, he⟩ | he | ⟨_, he⟩
    · obtain rfl := Effect.tsAdd.inj he
      exact .fused metric ts val
    all_goals contradiction

theorem run_publishes {ts : List FusionTurn} {s : FusionState}
    (hrun : (fusion cfg).Run (.init cfg) ts s) :
    Publishes cfg s.task ∧ ∀ w, .tsAdd w ∈ events ts → FusionWrite cfg w := by
  refine hrun.emits (J := fun s => Publishes cfg s.task) ?_ ?_
  · trivial
  · intro ts s a s' es _ hbefore hstep
    exact (FusionStep.of_step hstep).publishes hbefore

private theorem FusionWrite.owns {w : TsAdd} (h : FusionWrite cfg w) :
    Task.owns cfg .fusion w.key = true := by
  cases h <;> rfl

/-- What the loop has to publish goes to its own series. -/
def PublishesOwn (cfg : Config) : FusionTask → Prop
  | .publishing effects => ∀ w, .tsAdd w ∈ effects → Task.owns cfg .fusion w.key = true
  | _ => True

private theorem Publishes.own {task : FusionTask} (h : Publishes cfg task) :
    PublishesOwn cfg task := by
  cases task with
  | publishing effects => exact fun w hw => (h w hw).owns
  | _ => trivial

theorem run_publishesOwn {ts : List FusionTurn} {s : FusionState}
    (hrun : (fusion cfg).Run (.init cfg) ts s) :
    PublishesOwn cfg s.task ∧
      ∀ w, .tsAdd w ∈ events ts → Task.owns cfg .fusion w.key = true := by
  obtain ⟨htask, hwrites⟩ := run_publishes hrun
  exact ⟨htask.own, fun w hw => (hwrites w hw).owns⟩

/-- The summaries that the loop may set. -/
def filesUnder (cfg : Config) : HashKey → Bool
  | .peerSummary id => cfg.peers.any fun p => p.id = id
  | .ntpSummary id => cfg.ntpSources.any fun n => n.id = id
  | .fusedSummary => true
  | .peerSelf id => id = cfg.nodeId

/-- The samples are of sources, and so are the summaries that are still to be set. -/
def NamesSources (cfg : Config) : FusionTask → Prop
  | .collecting _ _ samples => ∀ s ∈ samples, ∃ src ∈ sources cfg, src.id = s.peerId
  | .delays _ _ _ _ samples => ∀ s ∈ samples, ∃ src ∈ sources cfg, src.id = s.peerId
  | .jitters _ _ _ _ _ samples => ∀ s ∈ samples, ∃ src ∈ sources cfg, src.id = s.peerId
  | .publishing effects => ∀ h, .hmSet h ∈ effects → filesUnder cfg h.key = true
  | _ => True

private theorem filesUnder_summaryKey {src : Source} (hsrc : src ∈ sources cfg) :
    filesUnder cfg (summaryKey cfg src.id) = true := by
  by_cases hpeer : (cfg.peers.any fun p => p.id = src.id) = true
  · rw [summaryKey, if_pos hpeer]
    exact hpeer
  · have hntp : (cfg.ntpSources.any fun n => n.id = src.id) = true := by
      rcases List.mem_append.mp hsrc with hsrc | hsrc
      · obtain ⟨p, hp, rfl⟩ := List.mem_map.mp hsrc
        apply absurd _ hpeer
        exact List.any_eq_true.mpr ⟨p, (List.mem_filter.mp hp).1, decide_eq_true rfl⟩
      · obtain ⟨n, hn, rfl⟩ := List.mem_map.mp hsrc
        exact List.any_eq_true.mpr ⟨n, hn, decide_eq_true rfl⟩
    rw [summaryKey, if_neg hpeer, if_pos hntp]
    exact hntp

private theorem namesSources_afterEffects {e : Effect} {rest : List Effect}
    (h : NamesSources cfg (.publishing (e :: rest))) : NamesSources cfg (afterEffects rest) := by
  cases rest with
  | nil => trivial
  | cons e' rest => exact fun x hx => h x (List.mem_cons_of_mem _ hx)

private theorem NamesSources.files {task : FusionTask} (h : NamesSources cfg task) {x : HmSet}
    (hx : .hmSet x ∈ task.effects) : filesUnder cfg x.key = true := by
  cases task with
  | publishing effects => exact h x hx
  | _ => contradiction

private theorem FusionStep.namesSources {s s' : FusionState} {a : FusionAction}
    {es : List FusionEvent}
    (hstep : FusionStep cfg s a s' es) (hahead : s.task.ahead <:+ sources cfg)
    (h : NamesSources cfg s.task) : NamesSources cfg s'.task := by
  cases hstep with
  | skip => exact h
  | tick => simp [NamesSources]
  | sparse htask
  | enough htask
  | delays entries htask =>
    rw [htask] at h
    exact h
  | @jitters since src offsets delays todo samples entries htask =>
    rw [htask] at h hahead
    intro sample hsample
    rcases List.mem_append.mp hsample with hsample | hsample
    · exact h sample hsample
    · obtain rfl := List.mem_singleton.mp hsample
      exact ⟨src, hahead.subset List.mem_cons_self, rfl⟩
  | fuse ts htask hfuse =>
    rw [htask] at h
    intro x hx
    rcases mem_publishEffects_hmSet hx with ⟨sample, hsample, hsummary⟩ | hkey | hkey
    · obtain ⟨src, hsrc, hid⟩ := h sample hsample
      rw [← Effect.hmSet.inj hsummary, ← hid]
      exact filesUnder_summaryKey hsrc
    · rw [hkey]
      rfl
    · rw [hkey]
      exact decide_eq_true rfl
  | tsAdd htask
  | slew htask
  | hmSet htask
  | phcAbsent htask =>
    rw [htask] at h
    exact namesSources_afterEffects h
  | phcRead htask =>
    rw [htask] at h
    intro x hx
    rcases mem_phcEffects hx with ⟨_, _, hx⟩ | hx
    · contradiction
    · exact h x (List.mem_cons_of_mem _ hx)
  | _ => trivial

theorem run_namesSources {ts : List FusionTurn} {s : FusionState}
    (hrun : (fusion cfg).Run (.init cfg) ts s) :
    NamesSources cfg s.task ∧ ∀ x, .hmSet x ∈ events ts → filesUnder cfg x.key = true := by
  refine hrun.emits (J := fun s => NamesSources cfg s.task) ?_ ?_
  · trivial
  · intro ts s a s' es hrun hbefore hstep
    have hfusion := FusionStep.of_step hstep
    exact ⟨hfusion.namesSources (run_ahead hrun) hbefore,
      fun x hx => hbefore.files (hfusion.published.2 x hx)⟩

/-- A write of a poller. -/
inductive ServerWrite (cfg : Config) (src : NtpSource) : TsAdd → Prop where
  | mk (metric : NtpMetric) (ts : UInt64) (val : F64) :
      ServerWrite cfg src
        { key := .ntp src.id metric, tsNs := ts, val := val, windowNs := pollerWindowNs cfg }

/-- What a poller has to store are writes of this poller. -/
def Stores (cfg : Config) (src : NtpSource) : PollerTask → Prop
  | .storing _ todo _ => ∀ w, .tsAdd w ∈ todo → ServerWrite cfg src w
  | _ => True

private theorem PollerStep.stores {src : NtpSource} {s s' : PollerState} {a : PollerAction}
    {es : List PollerEvent} (hstep : PollerStep cfg src s a s' es) (h : Stores cfg src s.task) :
    Stores cfg src s'.task ∧ ∀ w, .tsAdd w ∈ es → ServerWrite cfg src w := by
  have hresult : ∀ {m metric field result todo fields},
      (∀ w, .tsAdd w ∈ todo → ServerWrite cfg src w) →
      Stores cfg src (withResult cfg src m metric field result todo fields) := by
    intro m metric field result todo fields htodo
    cases result with
    | none => exact htodo
    | some val =>
      intro w hw
      rcases List.mem_cons.mp hw with hw | hw
      · obtain rfl := PollerEffect.tsAdd.inj hw
        exact .mk metric _ _
      · exact htodo w hw
  cases hstep with
  | unread
  | skipped => exact ⟨h, by simp⟩
  | request
  | lost
  | rejected
  | hmSet => exact ⟨trivial, by simp⟩
  | sampled =>
    refine ⟨?_, by simp⟩
    intro w hw
    simp only [storeEffects, ntpAdd, List.mem_cons, PollerEffect.tsAdd.injEq, List.not_mem_nil,
      or_false, reduceCtorEq] at hw
    rcases hw with rfl | rfl | rfl | rfl | rfl <;> exact .mk _ _ _
  | tsAdd htask =>
    rw [htask] at h
    refine ⟨fun w hw => h w (List.mem_cons_of_mem _ hw), ?_⟩
    intro w hw
    obtain rfl := PollerEvent.tsAdd.inj (List.mem_singleton.mp hw)
    exact h w List.mem_cons_self
  | systemNow c htask =>
    rw [htask] at h
    refine ⟨?_, by simp⟩
    intro w hw
    simp only [ntpAdd, List.mem_cons, PollerEffect.tsAdd.injEq] at hw
    rcases hw with rfl | rfl | hw
    · exact .mk _ _ _
    · exact .mk _ _ _
    · exact h w (List.mem_cons_of_mem _ hw)
  | compare others htask =>
    rw [htask] at h
    exact ⟨hresult fun w hw => h w (List.mem_cons_of_mem _ hw), by simp⟩
  | ping ms htask =>
    rw [htask] at h
    exact ⟨hresult fun w hw => h w (List.mem_cons_of_mem _ hw), by simp⟩

theorem run_stores {src : NtpSource} {ts : List (Turn PollerState PollerAction PollerEvent)}
    {s : PollerState} (hrun : (poller cfg src).Run {} ts s) :
    Stores cfg src s.task ∧ ∀ w, .tsAdd w ∈ events ts → ServerWrite cfg src w := by
  refine hrun.emits (J := fun s => Stores cfg src s.task) ?_ ?_
  · trivial
  · intro ts s a s' es _ hbefore hstep
    exact (PollerStep.of_step hstep).stores hbefore

private theorem ServerWrite.key {src : NtpSource} {w : TsAdd} (h : ServerWrite cfg src w) :
    ∃ metric, w.key = .ntp src.id metric := by
  cases h with
  | mk metric => exact ⟨metric, rfl⟩

/-- What a poller has to store is under its server's number. -/
def ServerKeys (src : NtpSource) : PollerTask → Prop
  | .storing _ todo _ => ∀ w, .tsAdd w ∈ todo → ∃ metric, w.key = .ntp src.id metric
  | _ => True

private theorem Stores.serverKeys {src : NtpSource} {task : PollerTask} (h : Stores cfg src task) :
    ServerKeys src task := by
  cases task with
  | storing m todo fields => exact fun w hw => (h w hw).key
  | _ => trivial

theorem run_serverKeys {src : NtpSource} {ts : List (Turn PollerState PollerAction PollerEvent)}
    {s : PollerState} (hrun : (poller cfg src).Run {} ts s) :
    ServerKeys src s.task ∧ ∀ w, .tsAdd w ∈ events ts → ∃ metric, w.key = .ntp src.id metric := by
  obtain ⟨htask, hwrites⟩ := run_stores hrun
  exact ⟨htask.serverKeys, fun w hw => (hwrites w hw).key⟩

theorem run_pollerSummary {src : NtpSource} {ts : List (Turn PollerState PollerAction PollerEvent)}
    {s : PollerState} (hrun : (poller cfg src).Run {} ts s) {h : HmSet}
    (hmem : .hmSet h ∈ events ts) : h.key = .ntpSummary src.id := by
  obtain ⟨⟨before, a, es, after⟩, ht, hes⟩ := mem_events.mp hmem
  have hstep : (poller cfg src).step before a = some (after, es) := hrun.step_of_mem ht
  cases PollerStep.of_step hstep with
  | hmSet htask => rw [PollerEvent.hmSet.inj (List.mem_singleton.mp hes)]
  | _ => simp at hes

/-- In every run each task keeps to its own series. -/
theorem run_owns {store : Store} {ts : List (DaemonTurn cfg)} {s : DaemonState cfg}
    (hrun : (daemon parse cfg).toMachine.Run (Daemon.init cfg store) ts s) {i : TaskOf cfg}
    {e : i.Event} (he : ⟨i, e⟩ ∈ events ts) {w : TsAdd} (hw : i.write? e = some w) :
    i.owns cfg w.key = true := by
  have hmem := (mem_events_view hrun).mpr he
  have hlocal := run_view hrun i
  cases i with
  | node =>
    cases e with
    | tsAdd w c =>
      obtain rfl := Option.some.inj hw
      rcases run_peerKeys hlocal hmem with hkey | ⟨p, _, _, metric, hkey⟩
      all_goals
        rw [hkey]
        rfl
    | _ => contradiction
  | fusion =>
    cases e with
    | tsAdd w =>
      obtain rfl := Option.some.inj hw
      exact (run_publishesOwn hlocal).2 w hmem
    | _ => contradiction
  | poller k =>
    cases e with
    | tsAdd w =>
      obtain rfl := Option.some.inj hw
      obtain ⟨metric, hkey⟩ := (run_serverKeys hlocal).2 w hmem
      rw [hkey]
      exact decide_eq_true rfl
    | _ => contradiction

end Zeitpeer
