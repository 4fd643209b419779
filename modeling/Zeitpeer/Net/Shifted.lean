import Zeitpeer.Net.Resilience
import Zeitpeer.Time.Shift

/-!
# The fused clock under shifted sources

Two runs of the fusion loop side by side, in the second of which every offset that is read is
ahead by one constant. They take the same turns, and what the second one fuses is ahead by that
constant; only the values that it publishes differ.
-/

namespace Zeitpeer

open Framework Machine

/-- The key is that of a source's offsets. -/
def SeriesKey.isOffset : SeriesKey → Bool
  | .peer _ .offset => true
  | .ntp _ .offset => true
  | _ => false

def Entry.shift (c : F64) (e : Entry) : Entry := { e with val := e.val + c }

/-- The constant added to a reply where it is a source's offsets. -/
def shiftReply (c : F64) (key : SeriesKey) (reply : Option (List Entry)) : Option (List Entry) :=
  if key.isOffset then reply.map (List.map (Entry.shift c)) else reply

/-- The same choice of the environment, with shifted offsets where some are read. -/
def FusionAction.shift (c : F64) : FusionAction → FusionAction
  | .recent key since limit reply => .recent key since limit (shiftReply c key reply)
  | a => a

/-- The same publication with other values. -/
inductive Effect.Shifted (c : F64) : Effect → Effect → Prop where
  | tsAdd (w : TsAdd) (val : F64) : Shifted c (.tsAdd w) (.tsAdd { w with val := val })
  | slew (offset drift drift' : F64) : Shifted c (.slew offset drift) (.slew (offset + c) drift')
  | phcOffset (ts : UInt64) (smoothed : F64) :
      Shifted c (.phcOffset ts smoothed) (.phcOffset ts (smoothed + c))
  | hmSet (h : HmSet) (fields : List (String × F64)) :
      Shifted c (.hmSet h) (.hmSet { h with fields := fields })

/-- The same place in the loop with shifted offsets, of which there are some wherever a sample
is made of them. -/
def FusionTask.Shifted (c : F64) : FusionTask → FusionTask → Prop
  | .idle, t => t = .idle
  | .collecting since todo samples, t =>
    t = .collecting since todo (samples.map (PeerSample.shift c))
  | .delays since src offsets todo samples, t =>
    offsets ≠ [] ∧
      t = .delays since src (shiftReadings c offsets) todo (samples.map (PeerSample.shift c))
  | .jitters since src offsets delay todo samples, t =>
    offsets ≠ [] ∧ t = .jitters since src (shiftReadings c offsets) delay todo
      (samples.map (PeerSample.shift c))
  | .publishing effects, t =>
    ∃ effects', t = .publishing effects' ∧ List.Forall₂ (Effect.Shifted c) effects effects'
  | .panicked, t => t = .panicked

structure FusionState.Shifted (c : F64) (s t : FusionState) : Prop where
  ewma : t.ewma = s.ewma.shift c
  ring : t.ring.map Prod.fst = s.ring.map Prod.fst
  task : s.task.Shifted c t.task

def FusionEvent.outcome? : FusionEvent → Option Fused
  | .fused f => some f
  | _ => none

/-- One turn and its counterpart: of the shifted samples the same ones are selected, and what
is fused is shifted, with the average that it goes into. -/
structure ShiftedTurn (cfg : Config) (c : F64) (t t' : FusionTurn) : Prop where
  action : t'.action = t.action.shift c
  samples : t'.before.task.collected? =
    t.before.task.collected?.map (List.map (PeerSample.shift c))
  selected : t'.before.task.collected?.map (selectBestPeers · cfg.filter.bestQuantile) =
    (t.before.task.collected?.map (selectBestPeers · cfg.filter.bestQuantile)).map
      (List.map (PeerSample.shift c))
  fused : t'.emitted.filterMap FusionEvent.outcome? =
    (t.emitted.filterMap FusionEvent.outcome?).map (Fused.shift c)
  ewma : t'.after.ewma = t.after.ewma.shift c

variable {cfg : Config} {c : F64}

private theorem isOffset_of_mem_sources {src : Source} (hsrc : src ∈ sources cfg) :
    src.offsetKey.isOffset = true ∧ src.delayKey.isOffset = false ∧
      src.jitterKey.isOffset = false := by
  rcases List.mem_append.mp hsrc with hpeer | hntp
  · obtain ⟨p, _, rfl⟩ := List.mem_map.mp hpeer
    exact ⟨rfl, rfl, rfl⟩
  · obtain ⟨n, _, rfl⟩ := List.mem_map.mp hntp
    exact ⟨rfl, rfl, rfl⟩

private theorem FusionTask.Shifted.reads {s t : FusionTask} (h : s.Shifted c t) :
    t.reads = s.reads := by
  cases s with
  | idle
  | panicked =>
    cases h
    rfl
  | collecting since todo samples =>
    cases h
    cases todo <;> rfl
  | delays
  | jitters =>
    obtain ⟨_, rfl⟩ := h
    rfl
  | publishing =>
    obtain ⟨_, rfl, _⟩ := h
    rfl

private theorem FusionTask.Shifted.collected? {s t : FusionTask} (h : s.Shifted c t) :
    t.collected? = s.collected?.map (List.map (PeerSample.shift c)) := by
  cases s with
  | idle
  | panicked =>
    cases h
    rfl
  | collecting since todo samples =>
    cases h
    cases todo <;> rfl
  | delays
  | jitters =>
    obtain ⟨_, rfl⟩ := h
    rfl
  | publishing =>
    obtain ⟨_, rfl, _⟩ := h
    rfl

private theorem map_reading_shift (entries : List Entry) :
    (entries.map (Entry.shift c)).map Entry.reading =
      shiftReadings c (entries.map Entry.reading) := by
  rw [shiftReadings, List.map_map, List.map_map]
  rfl

private theorem FusionTask.Shifted.onReply {s t : FusionTask} {key : SeriesKey} {since : UInt64}
    {reply : Option (List Entry)} (hahead : s.ahead <:+ sources cfg) (h : s.Shifted c t)
    (hreads : s.reads = some (key, since)) :
    (s.onReply cfg reply).Shifted c (t.onReply cfg (shiftReply c key reply)) := by
  cases s with
  | idle
  | panicked
  | publishing => contradiction
  | collecting since' todo samples =>
    cases h
    cases todo with
    | nil => contradiction
    | cons src todo =>
      obtain ⟨rfl, rfl⟩ := Prod.mk.inj (Option.some.inj hreads)
      have hkey := (isOffset_of_mem_sources (hahead.subset List.mem_cons_self)).1
      rw [shiftReply, if_pos hkey]
      cases reply with
      | none => rfl
      | some entries =>
        simp only [FusionTask.onReply, Option.map_some, List.length_map, map_reading_shift]
        by_cases hfew : entries.length < readLimit cfg
        · simp only [if_pos hfew]
          rfl
        · have hpos := readLimit_pos cfg
          simp only [if_neg hfew]
          refine ⟨?_, rfl⟩
          apply List.ne_nil_of_length_pos
          rw [List.length_map]
          omega
  | delays since' src offsets todo samples =>
    obtain ⟨hne, rfl⟩ := h
    obtain ⟨rfl, rfl⟩ := Prod.mk.inj (Option.some.inj hreads)
    have hkey := (isOffset_of_mem_sources (hahead.subset List.mem_cons_self)).2.1
    rw [shiftReply, hkey]
    cases reply with
    | none => rfl
    | some entries => exact ⟨hne, rfl⟩
  | jitters since' src offsets delays todo samples =>
    obtain ⟨hne, rfl⟩ := h
    obtain ⟨rfl, rfl⟩ := Prod.mk.inj (Option.some.inj hreads)
    have hkey := (isOffset_of_mem_sources (hahead.subset List.mem_cons_self)).2.2
    rw [shiftReply, hkey]
    cases reply with
    | none => rfl
    | some entries =>
      change _ = _
      simp only [Bool.false_eq_true, if_false, FusionTask.onReply, fromSeries_shift hne,
        List.map_append, List.map_cons, List.map_nil]

private theorem pushRing_fst (ring : Ring) (x : UInt64 × Int) :
    (pushRing ring x).map Prod.fst =
      (ring.map Prod.fst ++ [x.1]).drop ((ring.map Prod.fst ++ [x.1]).length - 512) := by
  rw [pushRing, List.map_drop, List.map_append, List.length_append, List.length_append,
    List.length_map]
  rfl

private theorem fusedAdd_shifted (metric : FusedMetric) (ts : UInt64) (val val' : F64) :
    (fusedAdd cfg metric ts val).Shifted c (fusedAdd cfg metric ts val') :=
  Effect.Shifted.tsAdd { key := .fused metric, tsNs := ts, val := val, windowNs := cfg.windowNs }
    val'

private theorem driftEffects_shifted {ts : UInt64} {smoothed : F64} {ring ring' : Ring}
    (hring : ring'.map Prod.fst = ring.map Prod.fst) :
    List.Forall₂ (Effect.Shifted c) (driftEffects cfg ts smoothed ring)
      (driftEffects cfg ts (smoothed + c) ring') := by
  have hlength : ring'.length = ring.length := by
    simpa using congrArg List.length hring
  rw [driftEffects, driftEffects, hlength]
  split
  · refine .cons (fusedAdd_shifted _ _ _ _) ?_
    split
    · exact .cons (.slew _ _ _) .nil
    · exact .nil
  · exact .nil

private theorem sampleSummary_shifted (s : PeerSample) :
    (sampleSummary cfg s).Shifted c (sampleSummary cfg (s.shift c)) := .hmSet _ _

private theorem publishEffects_shifted {ts : UInt64} {f : Fused} {ring ring' : Ring}
    {samples : List PeerSample} (hring : ring'.map Prod.fst = ring.map Prod.fst) :
    List.Forall₂ (Effect.Shifted c) (publishEffects cfg ts f ring samples)
      (publishEffects cfg ts (f.shift c) ring' (samples.map (PeerSample.shift c))) := by
  have hfused : List.Forall₂ (Effect.Shifted c) (fusedEffects cfg ts f ring)
      (fusedEffects cfg ts (f.shift c) ring') :=
    List.rel_append (.cons (fusedAdd_shifted _ _ _ _) (.cons (fusedAdd_shifted _ _ _ _)
      (.cons (fusedAdd_shifted _ _ _ _) .nil))) (driftEffects_shifted hring)
  have hsamples : List.Forall₂ (Effect.Shifted c) (samples.map (sampleSummary cfg))
      ((samples.map (PeerSample.shift c)).map (sampleSummary cfg)) := by
    rw [List.map_map, List.forall₂_map_left_iff, List.forall₂_map_right_iff, List.forall₂_same]
    exact fun s _ => sampleSummary_shifted s
  have hself : List.Forall₂ (Effect.Shifted c)
      (if cfg.peers.any fun p => p.id = cfg.nodeId then
        [.hmSet { key := .peerSelf cfg.nodeId, fields := [("last_ewma_ns", f.smoothed)] }]
      else [])
      (if cfg.peers.any fun p => p.id = cfg.nodeId then
        [.hmSet { key := .peerSelf cfg.nodeId, fields := [("last_ewma_ns", (f.shift c).smoothed)] }]
      else []) := by
    split
    · exact .cons (.hmSet _ _) .nil
    · exact .nil
  exact List.rel_append hfused (.cons (.phcOffset _ _)
    (List.rel_append (List.rel_append hsamples (.cons (.hmSet _ _) .nil)) hself))

private theorem afterEffects_shifted {rest rest' : List Effect}
    (h : List.Forall₂ (Effect.Shifted c) rest rest') :
    (afterEffects rest).Shifted c (afterEffects rest') := by
  cases h with
  | nil => rfl
  | cons hfirst hrest => exact ⟨_, rfl, .cons hfirst hrest⟩

/-! ## Two runs side by side -/

private theorem ShiftedTurn.of_states {s s' t t' : FusionState} {a : FusionAction}
    {es es' : List FusionEvent} (h : s.Shifted c t) (h' : s'.Shifted c t')
    (hfused : es'.filterMap FusionEvent.outcome? =
      (es.filterMap FusionEvent.outcome?).map (Fused.shift c)) :
    ShiftedTurn cfg c ⟨s, a, es, s'⟩ ⟨t, a.shift c, es', t'⟩ := by
  have hsamples := h.task.collected?
  refine ⟨rfl, hsamples, ?_, hfused, h'.ewma⟩
  change t.task.collected?.map _ = _
  rw [hsamples, Option.map_map, Option.map_map]
  congr 1
  funext samples
  exact selectBestPeers_shift

private theorem FusionState.Shifted.move {s t : FusionState} {task task' : FusionTask}
    (h : s.Shifted c t) (htask : task.Shifted c task') :
    FusionState.Shifted c { s with task := task } { t with task := task' } :=
  ⟨h.ewma, h.ring, htask⟩

/-- The second run can take the counterpart of a turn, and it leads to a shifted state. -/
def Matches (cfg : Config) (c : F64) (s t : FusionState) (a : FusionAction) (s' : FusionState)
    (es : List FusionEvent) : Prop :=
  ∃ t' es', (fusion cfg).step t (a.shift c) = some (t', es') ∧ s'.Shifted c t' ∧
    ShiftedTurn cfg c ⟨s, a, es, s'⟩ ⟨t, a.shift c, es', t'⟩

variable {s s' t t' : FusionState} {es : List FusionEvent}

theorem Matches.of_step {a : FusionAction} (es' : List FusionEvent) (h : s.Shifted c t)
    (h' : s'.Shifted c t') (hstep : fusionStep cfg t (a.shift c) = some (t', es'))
    (hfused : es'.filterMap FusionEvent.outcome? =
      (es.filterMap FusionEvent.outcome?).map (Fused.shift c)) : Matches cfg c s t a s' es :=
  ⟨t', es', hstep, h', .of_states h h' hfused⟩

private theorem tick_shifted {now : UInt64} (h : s.Shifted c t)
    (hstep : FusionStep cfg s (.tick now) s' es) : Matches cfg c s t (.tick now) s' es := by
  have htask := h.task
  cases hstep with
  | skip _ hidle hpeers =>
    rw [hidle] at htask
    have hstep : fusionStep cfg t (.tick now) = some (t, []) := by
      rw [fusionStep, htask, hpeers]
      rfl
    exact .of_step [] h h hstep rfl
  | tick _ hidle hpeers =>
    rw [hidle] at htask
    have hfirst : FusionTask.Shifted c
        (.collecting (saturatingSub now cfg.windowNs) (sources cfg) [])
        (.collecting (saturatingSub now cfg.windowNs) (sources cfg) []) := rfl
    have h' := h.move hfirst
    have hstep : fusionStep cfg t (.tick now) = some ({ t with
        task := .collecting (saturatingSub now cfg.windowNs) (sources cfg) [] }, []) := by
      rw [fusionStep, htask, List.isEmpty_eq_false_iff.mpr hpeers]
      rfl
    exact .of_step [] h h' hstep rfl

private theorem recent_shifted {key : SeriesKey} {since : UInt64} {limit : Nat}
    {reply : Option (List Entry)} (hahead : s.task.ahead <:+ sources cfg) (h : s.Shifted c t)
    (hstep : (fusion cfg).step s (.recent key since limit reply) = some (s', es)) :
    Matches cfg c s t (.recent key since limit reply) s' es := by
  obtain ⟨hreads, rfl, rfl, rfl⟩ := fusionStep_recent hstep
  have hnext : FusionTask.Shifted c (s.task.onReply cfg reply)
      (t.task.onReply cfg (shiftReply c key reply)) := h.task.onReply hahead hreads
  have h' := h.move hnext
  refine .of_step [] h h' ?_ rfl
  rw [FusionAction.shift, fusionStep, h.task.reads, if_pos ⟨hreads, rfl⟩]

private theorem publishing_start (cfg : Config) (c : F64) (ewma : WeightedEwma) (ts : UInt64)
    (f : Fused) (samples : List PeerSample) {ring ring' : Ring}
    (hring : ring'.map Prod.fst = ring.map Prod.fst) :
    FusionState.Shifted c
      { ewma := ewma
        ring := ring
        task := .publishing (publishEffects cfg ts f ring samples) }
      { ewma := ewma.shift c
        ring := ring'
        task := .publishing (publishEffects cfg ts (f.shift c) ring'
          (samples.map (PeerSample.shift c))) } :=
  ⟨rfl, hring, _, rfl, publishEffects_shifted hring⟩

private theorem fuse_shifted {ts : UInt64} (h : s.Shifted c t)
    (hstep : FusionStep cfg s (.fuse ts) s' es) : Matches cfg c s t (.fuse ts) s' es := by
  have hfused : ∀ samples, fuseSamples cfg.filter t.ewma (samples.map (PeerSample.shift c)) =
      (fuseSamples cfg.filter s.ewma samples).map
        fun r => (r.1.map (Fused.shift c), r.2.shift c) := by
    intro samples
    rw [h.ewma]
    exact fuseSamples_shift cfg.filter s.ewma samples
  have hthere : ∀ {since samples}, s.task = .collecting since [] samples →
      t.task = .collecting since [] (samples.map (PeerSample.shift c)) := by
    intro since samples htask
    have hrelated := h.task
    rw [htask] at hrelated
    exact hrelated
  cases hstep with
  | panic _ htask hfuse =>
    have hpanicked : FusionTask.Shifted c .panicked .panicked := rfl
    have h' := h.move hpanicked
    refine .of_step [] h h' ?_ rfl
    simp only [FusionAction.shift, fusionStep, hthere htask, hfused, hfuse, Option.map_none]
  | @nothing since samples ewma _ htask hfuse =>
    have h' : FusionState.Shifted c { s with ewma := ewma, task := .idle }
        { t with ewma := ewma.shift c, task := .idle } := ⟨rfl, h.ring, rfl⟩
    refine .of_step [] h h' ?_ rfl
    simp only [FusionAction.shift, fusionStep, hthere htask, hfused, hfuse, Option.map_some,
      Option.map_none]
  | @fuse since samples ewma f _ htask hfuse =>
    have hring : (pushRing t.ring (ts, F64.toI64 (f.shift c).smoothed)).map Prod.fst =
        (pushRing s.ring (ts, F64.toI64 f.smoothed)).map Prod.fst := by
      simp only [pushRing_fst, h.ring]
    have h' := publishing_start cfg c ewma ts f samples hring
    refine .of_step [.fused (f.shift c)] h h' ?_ rfl
    simp only [FusionAction.shift, fusionStep, hthere htask, hfused, hfuse, Option.map_some]

private theorem publishing_shifted {e : Effect} {rest : List Effect} (h : s.Shifted c t)
    (htask : s.task = .publishing (e :: rest)) :
    ∃ e' rest', t.task = .publishing (e' :: rest') ∧ e.Shifted c e' ∧
      List.Forall₂ (Effect.Shifted c) rest rest' := by
  have hrelated := h.task
  rw [htask] at hrelated
  obtain ⟨effects, heffects, halike⟩ := hrelated
  cases halike with
  | cons hfirst hrest => exact ⟨_, _, heffects, hfirst, hrest⟩

private theorem publish_shifted (h : s.Shifted c t) (hstep : FusionStep cfg s .publish s' es) :
    Matches cfg c s t .publish s' es := by
  cases hstep with
  | tsAdd htask
  | slew htask
  | hmSet htask =>
    obtain ⟨e', rest', hthere, hfirst, hrest⟩ := publishing_shifted h htask
    have h' := h.move (afterEffects_shifted hrest)
    cases hfirst
    all_goals
      refine .of_step ?_ h h' ?_ ?_
      rotate_left
      · change fusionStep cfg t .publish = _
        rw [fusionStep, hthere]
      · rfl

private theorem phcEffects_shifted {ts : UInt64} {smoothed : F64} {offset : Int}
    {rest rest' : List Effect} (hrest : List.Forall₂ (Effect.Shifted c) rest rest') :
    List.Forall₂ (Effect.Shifted c) (phcEffects cfg ts smoothed offset ++ rest)
      (phcEffects cfg ts (smoothed + c) offset ++ rest') :=
  .cons (.tsAdd _ _) (.cons (.tsAdd _ _) hrest)

private theorem phcOffset_shifted {clocks clocks' : Clocks} (h : s.Shifted c t)
    (hstep : FusionStep cfg s (.phcOffset clocks clocks') s' es) :
    Matches cfg c s t (.phcOffset clocks clocks') s' es := by
  cases hstep with
  | phcFailed htask hclock =>
    obtain ⟨e', rest', hthere, hfirst, hrest⟩ := publishing_shifted h htask
    have hidle : FusionTask.Shifted c .idle .idle := rfl
    have h' := h.move hidle
    cases hfirst
    refine .of_step [] h h' ?_ rfl
    simp only [FusionAction.shift, fusionStep, hthere, hclock]
  | phcAbsent htask hclock =>
    obtain ⟨e', rest', hthere, hfirst, hrest⟩ := publishing_shifted h htask
    have h' := h.move (afterEffects_shifted hrest)
    cases hfirst
    refine .of_step [] h h' ?_ rfl
    simp only [FusionAction.shift, fusionStep, hthere, hclock]
  | @phcRead _ _ ts smoothed rest offset htask hclock =>
    obtain ⟨e', rest', hthere, hfirst, hrest⟩ := publishing_shifted h htask
    have hnext : FusionTask.Shifted c (.publishing (phcEffects cfg ts smoothed offset ++ rest))
        (.publishing (phcEffects cfg ts (smoothed + c) offset ++ rest')) :=
      ⟨_, rfl, phcEffects_shifted hrest⟩
    have h' := h.move hnext
    cases hfirst
    refine .of_step [] h h' ?_ rfl
    simp only [FusionAction.shift, fusionStep, hthere, hclock]

private theorem step_shifted {a : FusionAction} (hahead : s.task.ahead <:+ sources cfg)
    (h : s.Shifted c t) (hstep : (fusion cfg).step s a = some (s', es)) :
    Matches cfg c s t a s' es := by
  cases a with
  | tick => exact tick_shifted h (.of_step hstep)
  | recent => exact recent_shifted hahead h hstep
  | fuse => exact fuse_shifted h (.of_step hstep)
  | publish => exact publish_shifted h (.of_step hstep)
  | phcOffset => exact phcOffset_shifted h (.of_step hstep)

/-- For every run there is the run in which a constant is added to every offset that is read.
Turn by turn it selects and keeps the same samples, with the same mean delay and total weight,
and its offset medians, means and smoothed values are ahead by that constant. -/
theorem fusion_shifted (c : F64) {ts : List FusionTurn} {s : FusionState}
    (hrun : (fusion cfg).Run (.init cfg) ts s) :
    ∃ ts' s', (fusion cfg).Run (.init cfg) ts' s' ∧ List.Forall₂ (ShiftedTurn cfg c) ts ts' := by
  have hstart : (FusionState.init cfg).Shifted c (.init cfg) := ⟨rfl, rfl, rfl⟩
  obtain ⟨ts', s', hrun', _, hturns⟩ := hrun.simulate hstart (T := ShiftedTurn cfg c) (by
    intro ts s t a s' es hrun h hstep
    obtain ⟨t', es', hstep', h', hturn⟩ := step_shifted (run_ahead hrun) h hstep
    exact ⟨_, t', es', hstep', h', hturn⟩)
  exact ⟨ts', s', hrun', hturns⟩

/-- The iteration over three servers, a microsecond ahead. -/
theorem fusion_shifted_trio : ∃ ts' s', (fusion trioConfig).Run (.init trioConfig) ts' s' ∧
    List.Forall₂ (ShiftedTurn trioConfig 1000)
      ((fusion trioConfig).turnsOf (.init trioConfig) trioIteration) ts' :=
  fusion_shifted 1000 (Run.of_actions trioIteration_runs)

end Zeitpeer
