import Zeitpeer.Net.Resilience

/-!
# One tick of the fusion loop

Followed from its tick to its end, with a store that does not change and answers every read, an
iteration collects a sample for every source with enough readings in the window and publishes
one fused offset if there was any. The only other way out is before it starts: the loop skips
the tick when the list of peers is empty, whatever NTP servers there are.
-/

namespace Zeitpeer

open Framework Machine

variable {cfg : Config} {store : Store} {since : UInt64}

/-- The source has enough offset readings inside the window. -/
def Fills (cfg : Config) (store : Store) (since : UInt64) (src : Source) : Prop :=
  readLimit cfg ≤ (eligible (store src.offsetKey) since).length

def Fusable (cfg : Config) (store : Store) (since : UInt64) : Prop :=
  ∃ src ∈ sources cfg, Fills cfg store since src

/-- One of the three writes that make up a fused offset. -/
def TsAdd.fused? (w : TsAdd) : Option FusedMetric :=
  match w.key with
  | .fused .driftPpm => none
  | .fused metric => some metric
  | _ => none

def FusionEvent.fused? : FusionEvent → Option FusedMetric
  | .tsAdd w => w.fused?
  | _ => none

def Effect.fused? : Effect → Option FusedMetric
  | .tsAdd w => w.fused?
  | _ => none

def fusedTriple : List FusedMetric := [.offset, .delay, .ewma]

def fusedWrites (es : List FusionEvent) : List FusedMetric := es.filterMap FusionEvent.fused?

def effectWrites (effects : List Effect) : List FusedMetric := effects.filterMap Effect.fused?

/-- Every source that can be fused is: there is one triple if some source fills its window, and
no write of it otherwise. -/
def FusesFusable (cfg : Config) (store : Store) (since : UInt64) (es : List FusionEvent) : Prop :=
  (Fusable cfg store since → fusedWrites es = fusedTriple) ∧
    (¬ Fusable cfg store since → fusedWrites es = [])

/-- A run from one tick until the loop waits for the next, with every read answered from one
store. -/
structure Iteration (cfg : Config) (store : Store) (now : UInt64) (s : FusionState)
    (ts : List FusionTurn) (s' : FusionState) : Prop where
  run : (fusion cfg).Run s ts s'
  begins : ∃ t rest, ts = t :: rest ∧ t.action = .tick now ∧ ∀ u ∈ rest, u.before.task ≠ .idle
  ends : s'.task = .idle
  answered : ∀ t ∈ ts, ∀ key since limit reply, t.action = .recent key since limit reply →
    ∃ entries, reply = some entries ∧ IsRecent (store key) since limit entries

/-- What is left to publish: the reading of the hardware clock, which can end the iteration,
comes after the fused offset. -/
def PhcLast (effects : List Effect) : Prop :=
  ∃ head tail, effects = head ++ tail ∧ (∀ ts smoothed, .phcOffset ts smoothed ∉ head) ∧
    effectWrites tail = []

private theorem effectWrites_summaries (samples : List PeerSample) :
    effectWrites (samples.map (sampleSummary cfg)) = [] := by
  induction samples with
  | nil => rfl
  | cons s samples ih => exact ih

private theorem effectWrites_append (xs ys : List Effect) :
    effectWrites (xs ++ ys) = effectWrites xs ++ effectWrites ys := by
  simp [effectWrites]

private theorem driftEffects_quiet (cfg : Config) (ts : UInt64) (smoothed : F64) (ring : Ring) :
    effectWrites (driftEffects cfg ts smoothed ring) = [] ∧
      ∀ ts' smoothed', .phcOffset ts' smoothed' ∉ driftEffects cfg ts smoothed ring := by
  unfold driftEffects
  split
  · split <;> exact ⟨rfl, by simp [fusedAdd]⟩
  · exact ⟨rfl, by simp⟩

private theorem reportEffects_quiet (cfg : Config) (ts : UInt64) (f : Fused)
    (samples : List PeerSample) : effectWrites (reportEffects cfg ts f samples) = [] := by
  have hself : effectWrites (if cfg.peers.any fun p => p.id = cfg.nodeId then
      [Effect.hmSet { key := .peerSelf cfg.nodeId, fields := [("last_ewma_ns", f.smoothed)] }]
      else []) = [] := by
    split <;> rfl
  change effectWrites (_ ++ _ ++ _) = []
  rw [effectWrites_append, effectWrites_append, effectWrites_summaries, hself]
  rfl

private theorem publishEffects_writes (cfg : Config) (ts : UInt64) (f : Fused) (ring : Ring)
    (samples : List PeerSample) :
    effectWrites (publishEffects cfg ts f ring samples) = fusedTriple ∧
      PhcLast (publishEffects cfg ts f ring samples) := by
  obtain ⟨hdrift, hphc⟩ := driftEffects_quiet cfg ts f.smoothed ring
  have hreport := reportEffects_quiet cfg ts f samples
  refine ⟨?_, fusedEffects cfg ts f ring, reportEffects cfg ts f samples, rfl, ?_, hreport⟩
  · rw [publishEffects, effectWrites_append, hreport, fusedEffects, effectWrites_append, hdrift]
    rfl
  · intro ts' smoothed' hmem
    rcases List.mem_append.mp hmem with hmem | hmem
    · simp [fusedAdd] at hmem
    · exact hphc ts' smoothed' hmem

private theorem PhcLast.tail {e : Effect} {rest : List Effect} (h : PhcLast (e :: rest)) :
    PhcLast rest := by
  obtain ⟨head, tail, hsplit, hhead, htail⟩ := h
  cases head with
  | nil =>
    refine ⟨[], rest, rfl, by simp, ?_⟩
    rw [← hsplit.trans (List.nil_append tail)] at htail
    exact (List.append_eq_nil_iff.mp (effectWrites_append [e] rest ▸ htail)).2
  | cons e' head =>
    obtain ⟨rfl, hrest⟩ := List.cons.inj hsplit
    exact ⟨head, tail, hrest, fun ts x hmem => hhead ts x (List.mem_cons_of_mem _ hmem), htail⟩

private theorem PhcLast.after_phc {ts : UInt64} {smoothed : F64} {rest : List Effect}
    (h : PhcLast (.phcOffset ts smoothed :: rest)) :
    effectWrites (.phcOffset ts smoothed :: rest) = [] := by
  obtain ⟨head, tail, hsplit, hhead, htail⟩ := h
  cases head with
  | nil =>
    rw [← hsplit.trans (List.nil_append tail)] at htail
    exact htail
  | cons e' head =>
    obtain ⟨rfl, _⟩ := List.cons.inj hsplit
    exact absurd List.mem_cons_self (hhead ts smoothed)

/-- How far an iteration has come, by what it has written. -/
def Progress (cfg : Config) (store : Store) (since : UInt64) (es : List FusionEvent) :
    FusionTask → Prop
  | .collecting since' todo samples => since' = since ∧ fusedWrites es = [] ∧
      ∃ done, sources cfg = done ++ todo ∧
        (samples ≠ [] ↔ ∃ src ∈ done, Fills cfg store since src)
  | .delays since' src _ todo _ => since' = since ∧ fusedWrites es = [] ∧
      Fills cfg store since src ∧ ∃ done, sources cfg = done ++ src :: todo
  | .jitters since' src _ _ todo _ => since' = since ∧ fusedWrites es = [] ∧
      Fills cfg store since src ∧ ∃ done, sources cfg = done ++ src :: todo
  | .publishing effects => Fusable cfg store since ∧ PhcLast effects ∧
      fusedWrites es ++ effectWrites effects = fusedTriple
  | .idle => FusesFusable cfg store since es
  | .panicked => False

private theorem fusedWrites_append (es fs : List FusionEvent) :
    fusedWrites (es ++ fs) = fusedWrites es ++ fusedWrites fs := by
  simp [fusedWrites]

private theorem FusesFusable.of_fusable {es : List FusionEvent} (h : Fusable cfg store since)
    (hes : fusedWrites es = fusedTriple) : FusesFusable cfg store since es :=
  ⟨fun _ => hes, fun hno => absurd h hno⟩

private theorem progress_afterEffects {es fs : List FusionEvent} {e : Effect} {rest : List Effect}
    (hfusable : Fusable cfg store since) (hlast : PhcLast (e :: rest))
    (hwrites : fusedWrites es ++ effectWrites (e :: rest) = fusedTriple)
    (hout : fusedWrites fs ++ effectWrites rest = effectWrites (e :: rest)) :
    Progress cfg store since (es ++ fs) (afterEffects rest) := by
  have hsame : fusedWrites (es ++ fs) ++ effectWrites rest = fusedTriple := by
    rw [fusedWrites_append, List.append_assoc, hout, hwrites]
  cases rest with
  | nil => exact .of_fusable hfusable ((List.append_nil _).symm.trans hsame)
  | cons e' rest => exact ⟨hfusable, hlast.tail, hsame⟩

section Actions

variable {es : List FusionEvent} {since' : UInt64} {src : Source} {todo : List Source}
  {samples : List PeerSample}

private theorem Progress.sparse {entries : List Entry} (hfew : entries.length < readLimit cfg)
    (hrecent : IsRecent (store src.offsetKey) since' (readLimit cfg) entries)
    (h : Progress cfg store since es (.collecting since' (src :: todo) samples)) :
    Progress cfg store since es (.collecting since' todo samples) := by
  obtain ⟨rfl, hes, done, hsplit, hsamples⟩ := h
  have hnot : ¬ Fills cfg store since' src := fun hfills =>
    absurd ((hrecent.limit_le_iff (readLimit_pos cfg)).mpr hfills) (Nat.not_le.mpr hfew)
  refine ⟨rfl, hes, done ++ [src], by simpa using hsplit, ?_⟩
  rw [hsamples]
  simp [or_and_right, exists_or, hnot]

private theorem Progress.enough {entries : List Entry} {offsets : List (UInt64 × F64)}
    (hmany : readLimit cfg ≤ entries.length)
    (hrecent : IsRecent (store src.offsetKey) since' (readLimit cfg) entries)
    (h : Progress cfg store since es (.collecting since' (src :: todo) samples)) :
    Progress cfg store since es (.delays since' src offsets todo samples) := by
  obtain ⟨rfl, hes, done, hsplit, _⟩ := h
  exact ⟨rfl, hes, (hrecent.limit_le_iff (readLimit_pos cfg)).mp hmany, done, hsplit⟩

private theorem Progress.jitters {offsets delays : List (UInt64 × F64)} {sample : PeerSample}
    (h : Progress cfg store since es (.jitters since' src offsets delays todo samples)) :
    Progress cfg store since es (.collecting since' todo (samples ++ [sample])) := by
  obtain ⟨rfl, hes, hfills, done, hsplit⟩ := h
  refine ⟨rfl, hes, done ++ [src], by simpa using hsplit, ?_⟩
  exact ⟨fun _ => ⟨src, by simp, hfills⟩, fun _ => by simp⟩

private theorem Progress.samples_iff
    (h : Progress cfg store since es (.collecting since' [] samples)) :
    fusedWrites es = [] ∧ (samples ≠ [] ↔ Fusable cfg store since) := by
  obtain ⟨rfl, hes, done, hsplit, hsamples⟩ := h
  rw [Fusable, hsplit, List.append_nil]
  exact ⟨hes, hsamples⟩

private theorem Progress.nothing {ewma ewma' : WeightedEwma}
    (hfuse : fuseSamples cfg.filter ewma samples = some (none, ewma'))
    (h : Progress cfg store since es (.collecting since' [] samples)) :
    FusesFusable cfg store since es := by
  obtain ⟨hes, hsamples⟩ := h.samples_iff
  rcases fuseSamples_cases hfuse with ⟨hempty, _, _⟩ | ⟨_, _, _, hout, _⟩
  · exact ⟨fun hfusable => absurd hempty (hsamples.mpr hfusable), fun _ => hes⟩
  · contradiction

private theorem Progress.fuse {ewma ewma' : WeightedEwma} {f : Fused} (ts : UInt64) (ring : Ring)
    (hfuse : fuseSamples cfg.filter ewma samples = some (some f, ewma'))
    (h : Progress cfg store since es (.collecting since' [] samples)) :
    Progress cfg store since (es ++ [.fused f])
      (.publishing (publishEffects cfg ts f ring samples)) := by
  obtain ⟨hes, hsamples⟩ := h.samples_iff
  obtain ⟨hwrites, hlast⟩ := publishEffects_writes cfg ts f ring samples
  rcases fuseSamples_cases hfuse with ⟨_, hout, _⟩ | ⟨_, hne, _⟩
  · contradiction
  · refine ⟨hsamples.mp hne, hlast, ?_⟩
    rw [fusedWrites_append, hes, hwrites]
    rfl

private theorem Progress.tsAdd {w : TsAdd} {rest : List Effect}
    (h : Progress cfg store since es (.publishing (.tsAdd w :: rest))) :
    Progress cfg store since (es ++ [.tsAdd w]) (afterEffects rest) := by
  obtain ⟨hfusable, hlast, hwrites⟩ := h
  refine progress_afterEffects hfusable hlast hwrites ?_
  cases hw : w.fused? with
  | none
  | some metric => simp [fusedWrites, effectWrites, FusionEvent.fused?, Effect.fused?, hw]

private theorem Progress.quiet {e : Effect} {rest : List Effect} {fs : List FusionEvent}
    (hout : fusedWrites fs ++ effectWrites rest = effectWrites (e :: rest))
    (h : Progress cfg store since es (.publishing (e :: rest))) :
    Progress cfg store since (es ++ fs) (afterEffects rest) := by
  obtain ⟨hfusable, hlast, hwrites⟩ := h
  exact progress_afterEffects hfusable hlast hwrites hout

private theorem Progress.phcFailed {ts : UInt64} {smoothed : F64} {rest : List Effect}
    (h : Progress cfg store since es (.publishing (.phcOffset ts smoothed :: rest))) :
    FusesFusable cfg store since es := by
  obtain ⟨hfusable, hlast, hwrites⟩ := h
  rw [hlast.after_phc, List.append_nil] at hwrites
  exact .of_fusable hfusable hwrites

private theorem Progress.phcRead {ts : UInt64} {smoothed : F64} {rest : List Effect} (offset : Int)
    (h : Progress cfg store since es (.publishing (.phcOffset ts smoothed :: rest))) :
    Progress cfg store since es (.publishing (phcEffects cfg ts smoothed offset ++ rest)) := by
  obtain ⟨hfusable, hlast, hwrites⟩ := h
  have hrest : effectWrites rest = [] := hlast.after_phc
  have hphc : effectWrites (phcEffects cfg ts smoothed offset ++ rest) = [] := by
    rw [effectWrites_append, hrest]
    rfl
  refine ⟨hfusable, ⟨[], _, rfl, by simp, hphc⟩, ?_⟩
  rw [hlast.after_phc] at hwrites
  rwa [hphc]

end Actions

private theorem FusionStep.progress {es fs : List FusionEvent} {s s' : FusionState}
    {a : FusionAction} (hr : cfg.filter.trimRatio < 1 / 2) (hstep : FusionStep cfg s a s' fs)
    (hbusy : s.task ≠ .idle)
    (hanswered : ∀ key since limit reply, a = .recent key since limit reply →
      ∃ entries, reply = some entries ∧ IsRecent (store key) since limit entries)
    (h : Progress cfg store since es s.task) : Progress cfg store since (es ++ fs) s'.task := by
  cases hstep with
  | skip now hidle
  | tick now hidle => exact absurd hidle hbusy
  | failed hreads =>
    obtain ⟨_, hsome, _⟩ := hanswered _ _ _ _ rfl
    contradiction
  | sparse htask hfew =>
    obtain ⟨_, hreply, hrecent⟩ := hanswered _ _ _ _ rfl
    obtain rfl := Option.some.inj hreply
    rw [htask] at h
    rw [List.append_nil]
    exact h.sparse hfew hrecent
  | enough htask hmany =>
    obtain ⟨_, hreply, hrecent⟩ := hanswered _ _ _ _ rfl
    obtain rfl := Option.some.inj hreply
    rw [htask] at h
    rw [List.append_nil]
    exact h.enough hmany hrecent
  | delays entries htask =>
    rw [htask] at h
    rw [List.append_nil]
    exact h
  | jitters entries htask =>
    rw [htask] at h
    rw [List.append_nil]
    exact h.jitters
  | @panic since' samples ts htask hfuse =>
    obtain ⟨out, ewma', hsome, _⟩ := fuseSamples_some s.ewma samples hr
    rw [hfuse] at hsome
    contradiction
  | nothing ts htask hfuse =>
    rw [htask] at h
    rw [List.append_nil]
    exact h.nothing hfuse
  | fuse ts htask hfuse =>
    rw [htask] at h
    exact h.fuse ts _ hfuse
  | tsAdd htask =>
    rw [htask] at h
    exact h.tsAdd
  | slew htask
  | hmSet htask
  | phcAbsent htask =>
    rw [htask] at h
    exact h.quiet rfl
  | phcFailed htask =>
    rw [htask] at h
    rw [List.append_nil]
    exact h.phcFailed
  | phcRead htask =>
    rw [htask] at h
    rw [List.append_nil]
    exact h.phcRead _

theorem run_progress {ts : List FusionTurn} {es : List FusionEvent} {s s' : FusionState}
    (hr : cfg.filter.trimRatio < 1 / 2) (hrun : (fusion cfg).Run s ts s')
    (hbusy : ∀ t ∈ ts, t.before.task ≠ .idle)
    (hanswered : ∀ t ∈ ts, ∀ key since limit reply, t.action = .recent key since limit reply →
      ∃ entries, reply = some entries ∧ IsRecent (store key) since limit entries)
    (h : Progress cfg store since es s.task) :
    Progress cfg store since (es ++ events ts) s'.task := by
  induction hrun with
  | start => simpa using h
  | turn _ hstep ih =>
    rw [events_append, events_singleton, ← List.append_assoc]
    rw [List.forall_mem_append, List.forall_mem_singleton] at hbusy hanswered
    apply (FusionStep.of_step hstep).progress hr
    · exact hbusy.2
    · exact hanswered.2
    · exact ih hbusy.1 hanswered.1

/-! ## An iteration ends -/

/-- Steps that an effect still takes; a hardware clock adds two writes. -/
def Effect.steps : Effect → Nat
  | .phcOffset _ _ => 3
  | _ => 1

/-- A bound on the steps to the end of the iteration. -/
def FusionTask.remaining : FusionTask → Nat
  | .collecting _ todo samples => 4 * todo.length + samples.length + 11
  | .delays _ _ _ todo samples => 4 * todo.length + samples.length + 14
  | .jitters _ _ _ _ todo samples => 4 * todo.length + samples.length + 13
  | .publishing effects => (effects.map Effect.steps).sum
  | _ => 0

private theorem steps_pos (e : Effect) : 0 < e.steps := by
  cases e <;> simp [Effect.steps]

private theorem remaining_afterEffects (rest : List Effect) :
    (afterEffects rest).remaining = (rest.map Effect.steps).sum := by
  cases rest <;> rfl

private theorem publishEffects_steps (cfg : Config) (ts : UInt64) (f : Fused) (ring : Ring)
    (samples : List PeerSample) :
    ((publishEffects cfg ts f ring samples).map Effect.steps).sum ≤ samples.length + 10 := by
  have hsamples : ((samples.map (sampleSummary cfg)).map Effect.steps).sum = samples.length := by
    induction samples with
    | nil => rfl
    | cons s samples ih =>
      rw [List.map_cons, List.map_cons, List.sum_cons, ih, List.length_cons, Nat.add_comm]
      rfl
  have hdrift : ((driftEffects cfg ts f.smoothed ring).map Effect.steps).sum ≤ 2 := by
    unfold driftEffects
    split
    · split <;> simp [fusedAdd, Effect.steps]
    · simp
  simp only [publishEffects, fusedEffects, reportEffects, List.map_append, List.map_cons,
    List.map_nil, List.sum_append, List.sum_cons, List.sum_nil, hsamples, fusedAdd, fusedSummary,
    Effect.steps]
  split <;> simp [Effect.steps] <;> omega

theorem step_recent {s : FusionState} {key : SeriesKey} {since : UInt64}
    (reply : Option (List Entry)) (hreads : s.task.reads = some (key, since)) :
    (fusion cfg).step s (.recent key since (readLimit cfg) reply) =
      some ({ s with task := s.task.onReply cfg reply }, []) := by
  simp [fusion, fusionStep, hreads]

theorem step_fuse {s : FusionState} {since : UInt64} {samples : List PeerSample}
    {f : Fused} {ewma : WeightedEwma} (ts : UInt64) (htask : s.task = .collecting since [] samples)
    (hfuse : fuseSamples cfg.filter s.ewma samples = some (some f, ewma)) :
    (fusion cfg).step s (.fuse ts) = some (
      { ewma := ewma
        ring := pushRing s.ring (ts, F64.toI64 f.smoothed)
        task := .publishing (publishEffects cfg ts f
          (pushRing s.ring (ts, F64.toI64 f.smoothed)) samples) }, [.fused f]) := by
  simp only [fusion, fusionStep, htask, hfuse]

/-- A task that a step may leave behind. -/
def FusionTask.Live (task : FusionTask) : Prop := task ≠ .panicked ∧ task ≠ .publishing []

private theorem live_afterEffects (rest : List Effect) : (afterEffects rest).Live := by
  cases rest <;> simp [afterEffects, FusionTask.Live]

private theorem reads_advances (cfg : Config) {task : FusionTask} {key : SeriesKey} {since : UInt64}
    (reply : Option (List Entry)) (hreads : task.reads = some (key, since)) :
    (task.onReply cfg reply).remaining < task.remaining ∧ (task.onReply cfg reply).Live := by
  cases task with
  | idle
  | panicked
  | publishing => contradiction
  | collecting since' todo samples =>
    cases todo with
    | nil => contradiction
    | cons src todo =>
      cases reply with
      | none => simp [FusionTask.onReply, FusionTask.remaining, FusionTask.Live]
      | some entries =>
        simp only [FusionTask.onReply]
        split
        all_goals
          simp only [FusionTask.remaining, FusionTask.Live, List.length_cons]
          exact ⟨by omega, by simp, by simp⟩
  | delays
  | jitters =>
    cases reply with
    | none => simp [FusionTask.onReply, FusionTask.remaining, FusionTask.Live]
    | some entries =>
      simp only [FusionTask.onReply, FusionTask.remaining, FusionTask.Live, List.length_append,
        List.length_singleton]
      exact ⟨by omega, by simp, by simp⟩

private theorem fuse_advances {s : FusionState} {since : UInt64} {samples : List PeerSample}
    (hr : cfg.filter.trimRatio < 1 / 2) (htask : s.task = .collecting since [] samples) :
    ∃ s' es, (fusion cfg).step s (.fuse 0) = some (s', es) ∧
      s'.task.remaining < s.task.remaining ∧ s'.task.Live := by
  obtain ⟨out, ewma, hfuse, _⟩ := fuseSamples_some s.ewma samples hr
  rw [htask]
  cases out with
  | none =>
    have hstep : (fusion cfg).step s (.fuse 0) =
        some ({ s with ewma := ewma, task := .idle }, []) := by
      simp only [fusion, fusionStep, htask, hfuse]
    exact ⟨_, _, hstep, by simp [FusionTask.remaining, FusionTask.Live]⟩
  | some f =>
    have hsteps := publishEffects_steps cfg 0 f
      (pushRing s.ring (0, F64.toI64 f.smoothed)) samples
    refine ⟨_, _, step_fuse 0 htask hfuse, ?_, by simp, ?_⟩
    · simp only [FusionTask.remaining, List.length_nil]
      omega
    · simp [publishEffects, fusedEffects]

private theorem publish_advances {s : FusionState} {e : Effect} {rest : List Effect}
    (htask : s.task = .publishing (e :: rest)) :
    ∃ a s' es, (fusion cfg).step s a = some (s', es) ∧
      (s'.task.remaining < s.task.remaining ∧ s'.task.Live) ∧
      ∀ key since limit reply, a ≠ .recent key since limit reply := by
  have hless : (afterEffects rest).remaining < s.task.remaining := by
    have hstep := steps_pos e
    rw [htask, remaining_afterEffects, FusionTask.remaining, List.map_cons, List.sum_cons]
    omega
  cases e with
  | phcOffset ts smoothed =>
    have hstep : (fusion cfg).step s (.phcOffset .unreadable .unreadable) =
        some ({ s with task := afterEffects rest }, []) := by
      simp only [fusion, fusionStep, htask, phcSystemOffset_unreadable]
    exact ⟨_, _, _, hstep, ⟨hless, live_afterEffects rest⟩, by simp⟩
  | tsAdd
  | slew
  | hmSet =>
    have hstep : ∃ es, (fusion cfg).step s .publish =
        some ({ s with task := afterEffects rest }, es) := by
      simp only [fusion, fusionStep, htask]
      exact ⟨_, rfl⟩
    obtain ⟨es, hstep⟩ := hstep
    exact ⟨_, _, _, hstep, ⟨hless, live_afterEffects rest⟩, by simp⟩

private theorem FusionState.advances (store : Store) {s : FusionState}
    (hr : cfg.filter.trimRatio < 1 / 2) (hbusy : s.task ≠ .idle) (hlive : s.task.Live) :
    ∃ a s' es, (fusion cfg).step s a = some (s', es) ∧
      (s'.task.remaining < s.task.remaining ∧ s'.task.Live) ∧
      ∀ key since limit reply, a = .recent key since limit reply →
        ∃ entries, reply = some entries ∧ IsRecent (store key) since limit entries := by
  by_cases hreads : ∃ key since, s.task.reads = some (key, since)
  · obtain ⟨key, since, hreads⟩ := hreads
    have hadvances := reads_advances cfg
      (some (recentReply (store key) since (readLimit cfg))) hreads
    refine ⟨_, _, _, step_recent (some (recentReply (store key) since (readLimit cfg))) hreads,
      hadvances, ?_⟩
    intro key' since' limit reply heq
    obtain ⟨rfl, rfl, rfl, rfl⟩ := FusionAction.recent.inj heq
    exact ⟨_, rfl, isRecent_recentReply _ _ _⟩
  · cases htask : s.task with
    | idle => exact absurd htask hbusy
    | panicked => exact absurd htask hlive.1
    | delays
    | jitters => exact absurd ⟨_, _, by rw [htask]; rfl⟩ hreads
    | collecting since todo samples =>
      cases todo with
      | cons => exact absurd ⟨_, _, by rw [htask]; rfl⟩ hreads
      | nil =>
        obtain ⟨s', es, hstep, hadvances⟩ := fuse_advances hr htask
        exact ⟨_, s', es, hstep, htask ▸ hadvances, by simp⟩
    | publishing effects =>
      cases effects with
      | nil => exact absurd htask hlive.2
      | cons e rest =>
        obtain ⟨a, s', es, hstep, hadvances, hother⟩ := publish_advances htask
        refine ⟨a, s', es, hstep, htask ▸ hadvances, ?_⟩
        intro key since limit reply heq
        exact absurd heq (hother key since limit reply)

private theorem iteration_ends (store : Store) {s : FusionState} (hr : cfg.filter.trimRatio < 1 / 2)
    (hlive : s.task.Live) :
    ∃ ts s', (fusion cfg).Run s ts s' ∧ s'.task = .idle ∧ (∀ t ∈ ts, t.before.task ≠ .idle) ∧
      ∀ t ∈ ts, ∀ key since limit reply, t.action = .recent key since limit reply →
        ∃ entries, reply = some entries ∧ IsRecent (store key) since limit entries := by
  induction hn : s.task.remaining using Nat.strong_induction_on generalizing s with
  | _ n ih =>
    by_cases hidle : s.task = .idle
    · exact ⟨[], s, .start, hidle, by simp, by simp⟩
    · obtain ⟨a, s', es, hstep, ⟨hless, hlive'⟩, hanswer⟩ :=
        FusionState.advances store hr hidle hlive
      obtain ⟨ts, s'', hrun, hend, hbusy, hanswered⟩ := ih _ (hn ▸ hless) hlive' rfl
      refine ⟨⟨s, a, es, s'⟩ :: ts, s'', (Run.start.turn hstep).append hrun, hend, ?_, ?_⟩
      · intro t ht
        rcases List.mem_cons.mp ht with rfl | ht
        · exact hidle
        · exact hbusy t ht
      · intro t ht
        rcases List.mem_cons.mp ht with rfl | ht
        · exact hanswer
        · exact hanswered t ht

private theorem iteration_exists (store : Store) (now : UInt64) {s : FusionState}
    (hr : cfg.filter.trimRatio < 1 / 2) (hidle : s.task = .idle) :
    ∃ ts s', Iteration cfg store now s ts s' := by
  by_cases hpeers : cfg.peers = []
  · have hstep : (fusion cfg).step s (.tick now) = some (s, []) := by
      simp [fusion, fusionStep, hidle, hpeers]
    refine ⟨[⟨s, .tick now, [], s⟩], s, Run.start.turn hstep, ⟨_, [], rfl, rfl, by simp⟩, hidle, ?_⟩
    simp
  · have hstep : (fusion cfg).step s (.tick now) = some ({ s with
        task := .collecting (saturatingSub now cfg.windowNs) (sources cfg) [] }, []) := by
      simp [fusion, fusionStep, hidle, hpeers]
    have hlive :
        (FusionTask.collecting (saturatingSub now cfg.windowNs) (sources cfg) []).Live := by
      simp [FusionTask.Live]
    obtain ⟨ts, s', hrun, hend, hbusy, hanswered⟩ := iteration_ends store
      (s := { s with task := .collecting (saturatingSub now cfg.windowNs) (sources cfg) [] })
      hr hlive
    refine ⟨_, s', (Run.start.turn hstep).append hrun, ⟨_, ts, rfl, rfl, hbusy⟩, hend, ?_⟩
    intro t ht
    rcases List.mem_cons.mp ht with rfl | ht
    · simp
    · exact hanswered t ht

private theorem iteration_fuses {now : UInt64} {s s' : FusionState} {ts : List FusionTurn}
    (hr : cfg.filter.trimRatio < 1 / 2) (h : Iteration cfg store now s ts s') :
    FusesFusable cfg store (saturatingSub now cfg.windowNs) (events ts) ↔
      cfg.peers ≠ [] ∨ ¬ Fusable cfg store (saturatingSub now cfg.windowNs) := by
  obtain ⟨⟨s₀, a, es, s₁⟩, rest, rfl, rfl, hbusy⟩ := h.begins
  have hrun := h.run
  rw [← List.nil_append (_ :: rest)] at hrun
  have hrest : (fusion cfg).Run s₁ rest s' := hrun.rest
  have hfirst : FusionStep cfg s₀ (.tick now) s₁ es := .of_step hrun.middle.2.1
  cases hfirst with
  | skip _ hidle hpeers =>
    -- the loop is idle again at once, and no turn of the rest starts there
    have hdone : rest = [] := by
      cases rest with
      | nil => rfl
      | cons u rest =>
        have hstart := hrest.first
        exact absurd (hstart ▸ hidle) (hbusy u List.mem_cons_self)
    subst hdone
    simp [FusesFusable, hpeers, fusedWrites, fusedTriple]
  | tick _ hidle hpeers =>
    have hstart : Progress cfg store (saturatingSub now cfg.windowNs) []
        (.collecting (saturatingSub now cfg.windowNs) (sources cfg) []) :=
      ⟨rfl, rfl, [], rfl, by simp⟩
    have hend := run_progress hr hrest hbusy
      (fun t ht => h.answered t (List.mem_cons_of_mem _ ht)) hstart
    rw [h.ends] at hend
    exact ⟨fun _ => .inl hpeers, fun _ => hend⟩

/-- A tick leads to an iteration that ends, and each such iteration fuses every fusable source
exactly if the list of peers is not empty or there is nothing to fuse. -/
theorem iteration_fuses_iff (cfg : Config) (store : Store) (now : UInt64) (s : FusionState)
    (hr : cfg.filter.trimRatio < 1 / 2) (hidle : s.task = .idle) :
    (∃ ts s', Iteration cfg store now s ts s') ∧
      ∀ ts s', Iteration cfg store now s ts s' →
        (FusesFusable cfg store (saturatingSub now cfg.windowNs) (events ts) ↔
          cfg.peers ≠ [] ∨ ¬ Fusable cfg store (saturatingSub now cfg.windowNs)) :=
  ⟨iteration_exists store now hr hidle, fun _ _ h => iteration_fuses hr h⟩

/-- A node without peers, which `ensureDefaults` gives the public servers. -/
def bareConfig : Config :=
  ensureDefaults
    { nodeId := 1
      phcDevice := none
      sampling := { intervalMs := 1000, windowSec := 30 }
      filter :=
        { lambda := 1 / 4, trimRatio := 1 / 10, bestQuantile := 1, minSamplesPerPeer := 1 } }

/-- Every server has been polled once. -/
def polledStore : Store
  | .ntp _ .offset => [⟨980000000000, 3⟩]
  | _ => []

def skippedTick : FusionTurn :=
  ⟨.init bareConfig, .tick 1000000000000, [], .init bareConfig⟩

private theorem polledStore_fusable :
    Fusable bareConfig polledStore (saturatingSub 1000000000000 bareConfig.windowNs) := by
  refine ⟨{ id := 9101, weight := 15 / 100, offsetKey := .ntp 9101 .offset,
            delayKey := .ntp 9101 .delay, jitterKey := .ntp 9101 .jitter }, ?_, ?_⟩
  · decide +kernel
  · change readLimit bareConfig ≤ (eligible (polledStore (.ntp 9101 .offset)) _).length
    decide +kernel

theorem iteration_fuses_iff_polled :
    (∃ ts s', Iteration trioConfig polledStore 1000000000000 (.init trioConfig) ts s') ∧
      ∀ ts s', Iteration trioConfig polledStore 1000000000000 (.init trioConfig) ts s' →
        (FusesFusable trioConfig polledStore
            (saturatingSub 1000000000000 trioConfig.windowNs) (events ts) ↔
          trioConfig.peers ≠ [] ∨ ¬ Fusable trioConfig polledStore
            (saturatingSub 1000000000000 trioConfig.windowNs)) :=
  iteration_fuses_iff trioConfig polledStore 1000000000000 (.init trioConfig)
    (by norm_num [trioConfig]) rfl

/-- The loop skips the tick of a node that has servers and their readings but no peers. -/
theorem bare_node_skips :
    Iteration bareConfig polledStore 1000000000000 (.init bareConfig) [skippedTick]
        (.init bareConfig) ∧
      ¬ FusesFusable bareConfig polledStore (saturatingSub 1000000000000 bareConfig.windowNs)
        (events [skippedTick]) := by
  have hstep : (fusion bareConfig).step (.init bareConfig) (.tick 1000000000000) =
      some (.init bareConfig, []) := rfl
  refine ⟨⟨Run.start.turn hstep, ⟨_, [], rfl, rfl, by simp⟩, rfl, by simp [skippedTick]⟩, ?_⟩
  intro h
  have hwrites := h.1 polledStore_fusable
  simp [skippedTick, fusedWrites, fusedTriple] at hwrites

end Zeitpeer
