import Zeitpeer.Net.Settling
import Zeitpeer.Net.Sharing
import Zeitpeer.Time.Trimming

/-!
# All or nothing

An iteration that ends with an error should leave everything as it was, and one that goes on to
publish should leave the fused series and the summaries in agreement. The hardware clock is read
between the two, after the average has been pushed, and its error ends the iteration there.
-/

namespace Zeitpeer

open Framework Machine Ensemble

variable {cfg : Config}

/-- The fusion loop of a node that has a store for itself. -/
abbrev fusionPart (cfg : Config) : PartIn fun _ : Unit => cfg := ⟨(), .fusion⟩

abbrev SiteTurn (cfg : Config) : Type := NodesTurn fun _ : Unit => cfg

/-- Nobody else touches what the node publishes about its fused values. -/
def Undisturbed (t : SiteTurn cfg) : Prop := ∀ d, t.action = .drift d → ¬ FusedKey d.key

/-- A fused value is stamped later than all before. -/
def StampsRise (t : SiteTurn cfg) : Prop :=
  ∀ stamp samples, t.action = .member (fusionPart cfg) (.fuse stamp) →
    (t.before.members (fusionPart cfg)).task.collected? = some samples → samples ≠ [] →
      NewStamp cfg t.before.medium stamp

/-- The turn fails an iteration: a read of the store or of the clocks returns an error. -/
def Errs (cfg : Config) (t : FusionTurn) : Prop :=
  (∃ key since limit, t.action = .recent key since limit none) ∨
    ∃ c c', t.action = .phcOffset c c' ∧ phcSystemOffset cfg.phcDevice c c' = none

/-- The reading of the hardware clock does not fail, and samples are not trimmed altogether. -/
structure Sound (cfg : Config) (t : FusionTurn) : Prop where
  clock : ∀ c c', t.action = .phcOffset c c' → phcSystemOffset cfg.phcDevice c c' ≠ none
  trim : ∀ samples, t.before.task.collected? = some samples → samples ≠ [] →
    cfg.filter.trimRatio < 1

variable {parse : String → UInt16 → Option SocketAddr} {m : Shared} {ts : List (SiteTurn cfg)}
  {s s' : NodesState fun _ : Unit => cfg}

/-- No other part of the node writes fused values. -/
theorem not_owns_fused {i : PartOf cfg} (hi : i ≠ .fusion) {key : StoreKey} (hkey : FusedKey key) :
    ¬ i.owns cfg key := by
  intro howns
  cases hkey with
  | series metric =>
    cases i with
    | node =>
      rcases howns with howns | ⟨_, _, _, _, howns⟩
      all_goals contradiction
    | poller k =>
      obtain ⟨_, howns⟩ := howns
      contradiction
    | fusion => exact hi rfl
    | handler k => exact howns
  | summary =>
    cases i with
    | poller k => contradiction
    | fusion => exact hi rfl
    | _ => exact howns

private theorem site_turn
    {a : Move (fun i : PartIn (fun _ : Unit => cfg) => i.2.Action) SharedDrift}
    {es : List (Sigma fun i : PartIn (fun _ : Unit => cfg) => i.2.Event)}
    (hrun : (nodes parse fun _ : Unit => cfg).toMachine.Run (Nodes.init _ m) ts s)
    (hstep : (nodes parse fun _ : Unit => cfg).toMachine.step s a = some (s', es))
    (hquiet : Undisturbed (⟨s, a, es, s'⟩ : SiteTurn cfg)) :
    (view (fusionPart cfg) [⟨s, a, es, s'⟩] = [] ∧
      s'.members (fusionPart cfg) = s.members (fusionPart cfg) ∧
      ∀ key, FusedKey key → s'.medium.get key = s.medium.get key) ∨
    ∃ b fs, a = .member (fusionPart cfg) b ∧
      FusionStep cfg (s.members (fusionPart cfg)) b (s'.members (fusionPart cfg)) fs ∧
      view (fusionPart cfg) [⟨s, a, es, s'⟩] =
        [⟨s.members (fusionPart cfg), b, fs, s'.members (fusionPart cfg)⟩] ∧
      s'.medium = stored cfg s.medium fs := by
  rcases member_turn hstep (fusionPart cfg) with
    ⟨hview, hsame, hother⟩ | ⟨b, fs, rfl, _, hlocal, rfl, hview⟩
  · refine .inl ⟨hview, hsame, ?_⟩
    intro key hkey
    cases a with
    | drift d =>
      obtain ⟨medium, hdrift, rfl, rfl⟩ := step_drift hstep
      apply get_drift_of_ne hdrift
      rintro rfl
      exact hquiet d rfl hkey
    | member i a =>
      have hafter := hrun.turn hstep
      obtain ⟨n, fs, _, _, rfl, rfl⟩ := step_member hstep
      apply get_writes_of_ne
      rintro w hw rfl
      obtain ⟨e, he, hwrite⟩ := List.mem_filterMap.mp hw
      have hmem := (mem_events_view hafter).mpr (mem_events_last (List.mem_map_of_mem he))
      have howns := part_owns (run_view hafter i) hmem hwrite
      obtain ⟨⟨⟩, i⟩ := i
      apply not_owns_fused _ hkey howns
      intro hpart
      cases i with
      | fusion => exact hother e (List.mem_map_of_mem he)
      | _ => contradiction
  · obtain ⟨n, fs', _, _, rfl, hes⟩ := step_member hstep
    obtain rfl := List.map_injective_iff.mpr sigma_mk_injective hes
    exact .inr ⟨b, fs, rfl, FusionStep.of_step hlocal, hview, rfl⟩

private theorem FusionStep.consistent {F F' : FusionState} {a : FusionAction}
    {es : List FusionEvent} (hstep : FusionStep cfg F a F' es) (hsound : Sound cfg ⟨F, a, es, F'⟩)
    (hnew : ∀ stamp samples, a = .fuse stamp → F.task.collected? = some samples → samples ≠ [] →
      NewStamp cfg m stamp)
    (h : Consistent (settled m F.task.effects)) :
    Consistent (settled (stored cfg m es) F'.task.effects) := by
  by_cases hfuse : ∃ ts, a = .fuse ts
  · obtain ⟨stamp, rfl⟩ := hfuse
    cases hstep with
    | panic ts htask
    | nothing ts htask =>
      rw [htask] at h
      exact h
    | fuse ts htask hfuse =>
      rcases fuseSamples_cases hfuse with ⟨_, hout, _⟩ | ⟨_, hne, _⟩
      · contradiction
      · exact (hnew stamp _ rfl (by rw [htask]; rfl) hne).consistent _ _ _
  · apply h.congr
    intro key hkey
    exact hstep.settles (fun ts hts => hfuse ⟨ts, hts⟩) hsound.clock m hkey

/-- In a run whose turns are sound, what the loop has begun to publish leads to a summary of the
newest value. -/
theorem run_consistent
    (hrun : (nodes parse fun _ : Unit => cfg).toMachine.Run (Nodes.init _ m) ts s)
    (hstart : Consistent m) (hquiet : ∀ t ∈ ts, Undisturbed t) (hrise : ∀ t ∈ ts, StampsRise t)
    (hsound : ∀ u ∈ view (fusionPart cfg) ts, Sound cfg u) :
    Consistent (settled s.medium (s.members (fusionPart cfg)).task.effects) := by
  induction hrun with
  | start => exact hstart
  | @turn ts s s' a es hrun hstep ih =>
    rw [view_append, List.forall_mem_append] at hsound
    rw [List.forall_mem_append, List.forall_mem_singleton] at hquiet hrise
    have hbefore := ih hquiet.1 hrise.1 hsound.1
    rcases site_turn hrun hstep hquiet.2 with ⟨_, hsame, hstore⟩ |
      ⟨b, fs, rfl, hlocal, hview, hmedium⟩
    · rw [hsame]
      exact hbefore.congr fun key hkey => settled_congr _ (hstore key hkey)
    · rw [hmedium]
      rw [hview, List.forall_mem_singleton] at hsound
      apply hlocal.consistent hsound.2 _ hbefore
      intro stamp samples haction
      exact hrise.2 stamp samples (congrArg _ haction)

/-- The summaries of all samples that have been collected have been set. -/
def Refreshed (cfg : Config) (hist : List FusionTurn) : Prop :=
  ∀ u ∈ hist, ∀ samples, u.before.task.collected? = some samples → ∀ x ∈ samples,
    ∃ h, sampleSummary cfg x = .hmSet h ∧ .hmSet h ∈ events hist

/-- The average, the ring, the fused series and the clock are as they were. -/
structure Unchanged (F₀ F : FusionState) (m₀ m : Shared) (es : List FusionEvent) : Prop where
  ewma : F.ewma = F₀.ewma
  ring : F.ring = F₀.ring
  series : ∀ metric, m.series (.fused metric) = m₀.series (.fused metric)
  clock : ∀ offset drift command, .slewed offset drift command ∉ es

/-- An entry of the average that is above all that were there. -/
def Grown (m₀ m : Shared) : Prop :=
  ∃ e ∈ m.series (.fused .ewma), ∀ x ∈ m₀.series (.fused .ewma), x.score < e.score

private theorem Grown.congr {m₀ m m' : Shared} (h : Grown m₀ m)
    (hsame : m'.get (.series (.fused .ewma)) = m.get (.series (.fused .ewma))) : Grown m₀ m' := by
  have hseries : m'.series (.fused .ewma) = m.series (.fused .ewma) := Contents.series.inj hsame
  obtain ⟨e, he, htop⟩ := h
  exact ⟨e, by rwa [hseries], htop⟩

private theorem Grown.ne {m₀ m : Shared} (h : Grown m₀ m) :
    m.series (.fused .ewma) ≠ m₀.series (.fused .ewma) := by
  obtain ⟨e, he, htop⟩ := h
  intro hsame
  rw [hsame] at he
  exact absurd (htop e he) (Nat.lt_irrefl _)

/-- While it reads, an iteration has changed nothing. -/
structure Untouched (cfg : Config) (F₀ : FusionState) (m₀ : Shared) (hist : List FusionTurn)
    (F : FusionState) (m : Shared) : Prop where
  ewma : F.ewma = F₀.ewma
  ring : F.ring = F₀.ring
  store : ∀ key, FusedKey key → m.get key = m₀.get key
  silent : events hist = []
  uncollected : ∀ u ∈ hist, u.before.task.collected? = none
  no_error : ∀ u ∈ hist, ¬ Errs cfg u

/-- While it publishes, the average gets, or has got, its new entry, and the summaries of the
samples are set or about to be; before the hardware clock none is set. -/
structure Publishing (cfg : Config) (m₀ : Shared) (hist : List FusionTurn) (m : Shared)
    (effects : List Effect) : Prop where
  sound : ∀ u ∈ hist, Sound cfg u
  order : effects.Pairwise Effect.Before
  sampled : ∃ u ∈ hist, ∃ samples, u.before.task.collected? = some samples ∧ samples ≠ []
  summaries : ∀ u ∈ hist, ∀ samples, u.before.task.collected? = some samples → ∀ x ∈ samples,
    sampleSummary cfg x ∈ effects ∨
      ∃ h, sampleSummary cfg x = .hmSet h ∧ .hmSet h ∈ events hist
  pending : (∃ e ∈ effects, e.isPhcOffset = true) → ∀ h, .hmSet h ∉ events hist
  grown : Grown m₀ (settled m effects)

/-- How an iteration has ended. -/
inductive Outcome (cfg : Config) (F₀ : FusionState) (m₀ : Shared) (hist : List FusionTurn)
    (F : FusionState) (m : Shared) : Prop where
  | failed (herr : ∃ u ∈ hist, Errs cfg u) (hsound : ∀ u ∈ hist, Sound cfg u)
      (hsame : Unchanged F₀ F m₀ m (events hist))
  | done (hsound : ∀ u ∈ hist, Sound cfg u) (hrefreshed : Refreshed cfg hist)
  | broken (hunsound : ∃ u ∈ hist, ¬ Sound cfg u) (hstale : ¬ Refreshed cfg hist)
      (hchanged : (∃ u ∈ hist, Errs cfg u) → Grown m₀ m)

def Stage (cfg : Config) (F₀ : FusionState) (m₀ : Shared) (hist : List FusionTurn)
    (F : FusionState) (m : Shared) : FusionTask → Prop
  | .publishing effects => Publishing cfg m₀ hist m effects
  | .idle => Outcome cfg F₀ m₀ hist F m
  | .panicked => Outcome cfg F₀ m₀ hist F m
  | _ => Untouched cfg F₀ m₀ hist F m

section Stages

variable {F₀ F F' : FusionState} {m₀ m m' : Shared} {hist : List FusionTurn}

private theorem Untouched.congr (h : Untouched cfg F₀ m₀ hist F m)
    (hsame : ∀ key, FusedKey key → m'.get key = m.get key) : Untouched cfg F₀ m₀ hist F m' :=
  { h with store := fun key hkey => (hsame key hkey).trans (h.store key hkey) }

private theorem Publishing.congr {effects : List Effect} (h : Publishing cfg m₀ hist m effects)
    (hsame : ∀ key, FusedKey key → m'.get key = m.get key) : Publishing cfg m₀ hist m' effects :=
  { h with grown := h.grown.congr (settled_congr _ (hsame _ (.series .ewma))) }

private theorem Outcome.congr (h : Outcome cfg F₀ m₀ hist F m)
    (hsame : ∀ key, FusedKey key → m'.get key = m.get key) : Outcome cfg F₀ m₀ hist F m' := by
  cases h with
  | failed herr hsound hunchanged =>
    refine .failed herr hsound { hunchanged with series := ?_ }
    intro metric
    exact (Contents.series.inj (hsame _ (.series metric))).trans (hunchanged.series metric)
  | done hsound hrefreshed => exact .done hsound hrefreshed
  | broken hunsound hstale hchanged =>
    exact .broken hunsound hstale fun herr => (hchanged herr).congr (hsame _ (.series .ewma))

private theorem Stage.congr {task : FusionTask} (h : Stage cfg F₀ m₀ hist F m task)
    (hsame : ∀ key, FusedKey key → m'.get key = m.get key) :
    Stage cfg F₀ m₀ hist F m' task := by
  cases task with
  | publishing effects => exact Publishing.congr h hsame
  | idle
  | panicked => exact Outcome.congr h hsame
  | _ => exact Untouched.congr h hsame

private theorem sound_of_uncollected {u : FusionTurn}
    (hclock : ∀ c c', u.action = .phcOffset c c' → phcSystemOffset cfg.phcDevice c c' ≠ none)
    (hcollected : u.before.task.collected? = none) : Sound cfg u where
  clock := hclock
  trim samples hsome := by
    rw [hcollected] at hsome
    contradiction

private theorem sound_of_no_error {u : FusionTurn} (herr : ¬ Errs cfg u)
    (hcollected : u.before.task.collected? = none) : Sound cfg u :=
  sound_of_uncollected (fun c c' haction hread => herr (.inr ⟨c, c', haction, hread⟩)) hcollected

private theorem FusionTask.collected_of_publishing {task : FusionTask} {effects : List Effect}
    (htask : task = .publishing effects) : task.collected? = none := by
  rw [htask]
  rfl

private theorem mem_of_collected {u : FusionTurn} {a : FusionAction} {es : List FusionEvent}
    {samples : List PeerSample} (hu : u ∈ hist ++ [⟨F, a, es, F'⟩])
    (hcollected : F.task.collected? = none) (hsome : u.before.task.collected? = some samples) :
    u ∈ hist := by
  rcases List.mem_append.mp hu with hu | hu
  · exact hu
  · obtain rfl := List.mem_singleton.mp hu
    rw [hcollected] at hsome
    contradiction

private theorem Untouched.sound (h : Untouched cfg F₀ m₀ hist F m) : ∀ u ∈ hist, Sound cfg u :=
  fun u hu => sound_of_no_error (h.no_error u hu) (h.uncollected u hu)

private theorem FusionTask.collected_of_reads {task : FusionTask} {read : SeriesKey × UInt64}
    (hreads : task.reads = some read) : task.collected? = none := by
  cases task with
  | collecting since todo samples =>
    cases todo with
    | nil => contradiction
    | cons => rfl
  | _ => rfl

private theorem Untouched.read {a : FusionAction} {task : FusionTask}
    (h : Untouched cfg F₀ m₀ hist F m) (hcollected : F.task.collected? = none)
    (herr : ¬ Errs cfg ⟨F, a, [], { F with task }⟩) :
    Untouched cfg F₀ m₀ (hist ++ [⟨F, a, [], { F with task }⟩]) { F with task } m where
  ewma := h.ewma
  ring := h.ring
  store := h.store
  silent := by simp [h.silent]
  uncollected := by
    rw [List.forall_mem_append, List.forall_mem_singleton]
    exact ⟨h.uncollected, hcollected⟩
  no_error := by
    rw [List.forall_mem_append, List.forall_mem_singleton]
    exact ⟨h.no_error, herr⟩

private theorem not_errs_recent {key : SeriesKey} {since : UInt64} {limit : Nat}
    {entries : List Entry} {es : List FusionEvent} :
    ¬ Errs cfg ⟨F, .recent key since limit (some entries), es, F'⟩ := by
  simp [Errs]

private theorem Publishing.next {a : FusionAction} {e : Effect} {rest : List Effect}
    {es : List FusionEvent} (h : Publishing cfg m₀ hist m (e :: rest))
    (htask : F.task = .publishing (e :: rest))
    (hclock : ∀ c c', a = .phcOffset c c' → phcSystemOffset cfg.phcDevice c c' ≠ none)
    (hout : ∀ x, e = .hmSet x → .hmSet x ∈ es) (hquiet : ∀ x, .hmSet x ∈ es → e = .hmSet x)
    (hsettle : (settled m' rest).get (.series (.fused .ewma)) =
      (settled m (e :: rest)).get (.series (.fused .ewma))) :
    Stage cfg F₀ m₀ (hist ++ [⟨F, a, es, F'⟩]) F' m' (afterEffects rest) := by
  have hnone : F.task.collected? = none := FusionTask.collected_of_publishing htask
  have hall : ∀ u ∈ hist ++ [⟨F, a, es, F'⟩], Sound cfg u := by
    rw [List.forall_mem_append, List.forall_mem_singleton]
    exact ⟨h.sound, sound_of_uncollected hclock hnone⟩
  have hsummaries : ∀ u ∈ hist ++ [⟨F, a, es, F'⟩], ∀ samples,
      u.before.task.collected? = some samples → ∀ x ∈ samples, sampleSummary cfg x ∈ rest ∨
        ∃ y, sampleSummary cfg x = .hmSet y ∧ .hmSet y ∈ events (hist ++ [⟨F, a, es, F'⟩]) := by
    intro u hu samples hsamples x hx
    have hearlier := mem_of_collected hu hnone hsamples
    rcases h.summaries u hearlier samples hsamples x hx with hmem | ⟨y, hy, hmem⟩
    · rcases List.mem_cons.mp hmem with hhead | hmem
      · exact .inr ⟨_, rfl, mem_events_last (hout _ hhead.symm)⟩
      · exact .inl hmem
    · exact .inr ⟨y, hy, mem_events_earlier hmem⟩
  cases rest with
  | nil =>
    refine Outcome.done hall ?_
    intro u hu samples hsamples x hx
    exact (hsummaries u hu samples hsamples x hx).resolve_left List.not_mem_nil
  | cons e' rest =>
    refine ⟨hall, h.order.of_cons, ?_, hsummaries, ?_, h.grown.congr hsettle⟩
    · obtain ⟨u, hu, hsampled⟩ := h.sampled
      exact ⟨u, List.mem_append_left _ hu, hsampled⟩
    · rintro ⟨p, hp, hphc⟩ x hx
      rcases mem_events_concat.mp hx with hx | hx
      · exact h.pending ⟨p, List.mem_cons_of_mem _ hp, hphc⟩ x hx
      · -- a summary does not come before the hardware clock
        have hbefore := List.rel_of_pairwise_cons h.order hp
        obtain rfl := hquiet x hx
        cases p with
        | phcOffset ts smoothed => exact hbefore
        | _ => contradiction

private theorem Untouched.fuse {stamp since : UInt64} {samples : List PeerSample} {f : Fused}
    {ring : Ring} (h : Untouched cfg F₀ m₀ hist F m) (htask : F.task = .collecting since [] samples)
    (hne : samples ≠ []) (htrim : cfg.filter.trimRatio < 1) (hnew : NewStamp cfg m stamp) :
    Publishing cfg m₀ (hist ++ [⟨F, .fuse stamp, [.fused f], F'⟩]) m
      (publishEffects cfg stamp f ring samples) := by
  have hcollected : F.task.collected? = some samples := by rw [htask]; rfl
  constructor
  · rw [List.forall_mem_append, List.forall_mem_singleton]
    exact ⟨h.sound, by simp, fun _ _ _ => htrim⟩
  · exact publishEffects_order stamp f ring samples
  · exact ⟨_, List.mem_concat_self, samples, hcollected, hne⟩
  · intro u hu samples' hsamples x hx
    rcases List.mem_append.mp hu with hu | hu
    · rw [h.uncollected u hu] at hsamples
      contradiction
    · obtain rfl := List.mem_singleton.mp hu
      obtain rfl := Option.some.inj (hcollected.symm.trans hsamples)
      left
      simp only [publishEffects, reportEffects, List.mem_append, List.mem_cons]
      exact .inr (.inr (.inl (.inl (List.mem_map_of_mem hx))))
  · intro _ x hx
    rcases mem_events_concat.mp hx with hx | hx
    · rw [h.silent] at hx
      contradiction
    · simp at hx
  · have hseries : m.series (.fused .ewma) = m₀.series (.fused .ewma) :=
      Contents.series.inj (h.store _ (.series .ewma))
    refine ⟨_, hnew.mem f ring samples, ?_⟩
    rw [← hseries]
    exact hnew.newest

private theorem Stage.untouched {task : FusionTask} {read : SeriesKey × UInt64}
    (h : Stage cfg F₀ m₀ hist F m task) (hreads : task.reads = some read) :
    Untouched cfg F₀ m₀ hist F m := by
  cases task with
  | collecting
  | delays
  | jitters => exact h
  | _ => contradiction

private theorem Untouched.fail {key : SeriesKey} {since : UInt64} {limit : Nat}
    (h : Untouched cfg F₀ m₀ hist F m) (hcollected : F.task.collected? = none) :
    Outcome cfg F₀ m₀ (hist ++ [⟨F, .recent key since limit none, [], { F with task := .idle }⟩])
      { F with task := .idle } m := by
  refine .failed ⟨_, List.mem_concat_self, ?_⟩ ?_ ?_
  · exact .inl ⟨key, since, limit, rfl⟩
  · rw [List.forall_mem_append, List.forall_mem_singleton]
    exact ⟨h.sound, sound_of_uncollected (by simp) hcollected⟩
  · refine ⟨h.ewma, h.ring, ?_, by simp [h.silent]⟩
    intro metric
    exact Contents.series.inj (h.store _ (.series metric))

private theorem Untouched.panic {stamp since : UInt64} {samples : List PeerSample}
    (h : Untouched cfg F₀ m₀ hist F m) (htask : F.task = .collecting since [] samples)
    (hne : samples ≠ []) (htrim : 1 ≤ cfg.filter.trimRatio) :
    Outcome cfg F₀ m₀ (hist ++ [⟨F, .fuse stamp, [], F'⟩]) F' m := by
  have hcollected : F.task.collected? = some samples := by rw [htask]; rfl
  have hlast : ⟨F, .fuse stamp, [], F'⟩ ∈ hist ++ [⟨F, .fuse stamp, [], F'⟩] := by simp
  refine .broken ⟨_, hlast, ?_⟩ ?_ ?_
  · intro hsound
    exact absurd (hsound.trim samples hcollected hne) (not_lt.mpr htrim)
  · intro hrefreshed
    obtain ⟨x, hx⟩ := List.exists_mem_of_ne_nil _ hne
    obtain ⟨y, _, hy⟩ := hrefreshed _ hlast samples hcollected x hx
    simp [h.silent] at hy
  · rintro ⟨u, hu, herr⟩
    rcases List.mem_append.mp hu with hu | hu
    · exact absurd herr (h.no_error u hu)
    · rw [List.mem_singleton.mp hu] at herr
      simp [Errs] at herr

private theorem Untouched.finish {stamp since : UInt64} (h : Untouched cfg F₀ m₀ hist F m)
    (htask : F.task = .collecting since [] []) :
    Outcome cfg F₀ m₀ (hist ++ [⟨F, .fuse stamp, [], F'⟩]) F' m := by
  have hcollected : F.task.collected? = some [] := by rw [htask]; rfl
  have hempty : ∀ u ∈ hist ++ [⟨F, .fuse stamp, [], F'⟩], ∀ samples,
      u.before.task.collected? = some samples → samples = [] := by
    intro u hu samples hsamples
    rcases List.mem_append.mp hu with hu | hu
    · rw [h.uncollected u hu] at hsamples
      contradiction
    · obtain rfl := List.mem_singleton.mp hu
      exact (Option.some.inj (hcollected.symm.trans hsamples)).symm
  refine .done ?_ ?_
  · rw [List.forall_mem_append, List.forall_mem_singleton]
    refine ⟨h.sound, by simp, ?_⟩
    intro samples hsamples hne
    exact absurd (hempty _ (by simp) samples hsamples) hne
  · intro u hu samples hsamples x hx
    rw [hempty u hu samples hsamples] at hx
    contradiction

private theorem Publishing.fail {ts : UInt64} {smoothed : F64} {rest : List Effect} {c c' : Clocks}
    (h : Publishing cfg m₀ hist m (.phcOffset ts smoothed :: rest))
    (hread : phcSystemOffset cfg.phcDevice c c' = none) :
    Outcome cfg F₀ m₀ (hist ++ [⟨F, .phcOffset c c', [], F'⟩]) F' m := by
  have hlast : ⟨F, .phcOffset c c', [], F'⟩ ∈ hist ++ [⟨F, .phcOffset c c', [], F'⟩] := by simp
  refine .broken ⟨_, hlast, fun hsound => hsound.clock c c' rfl hread⟩ ?_ ?_
  · intro hrefreshed
    obtain ⟨u, hu, samples, hsamples, hne⟩ := h.sampled
    obtain ⟨x, hx⟩ := List.exists_mem_of_ne_nil _ hne
    obtain ⟨y, _, hy⟩ := hrefreshed u (List.mem_append_left _ hu) samples hsamples x hx
    rcases mem_events_concat.mp hy with hy | hy
    · exact h.pending ⟨_, List.mem_cons_self, rfl⟩ y hy
    · contradiction
  · intro _
    exact h.grown.congr (settled_phcOffset h.order).symm

private theorem Publishing.readPhc {ts : UInt64} {smoothed : F64} {rest : List Effect}
    {c c' : Clocks} {offset : Int} (h : Publishing cfg m₀ hist m (.phcOffset ts smoothed :: rest))
    (htask : F.task = .publishing (.phcOffset ts smoothed :: rest))
    (hread : phcSystemOffset cfg.phcDevice c c' ≠ none)
    (hsettle : (settled m (phcEffects cfg ts smoothed offset ++ rest)).get
        (.series (.fused .ewma)) =
      (settled m (.phcOffset ts smoothed :: rest)).get (.series (.fused .ewma))) :
    Publishing cfg m₀ (hist ++ [⟨F, .phcOffset c c', [], F'⟩]) m
      (phcEffects cfg ts smoothed offset ++ rest) := by
  have hnone : F.task.collected? = none := FusionTask.collected_of_publishing htask
  have hevents : events (hist ++ [⟨F, .phcOffset c c', [], F'⟩]) = events hist := by simp
  constructor
  · rw [List.forall_mem_append, List.forall_mem_singleton]
    refine ⟨h.sound, sound_of_uncollected ?_ hnone⟩
    rintro _ _ ⟨⟩
    exact hread
  · simp only [phcEffects, List.cons_append, List.nil_append, List.pairwise_cons]
    exact ⟨fun e _ => before_of_early rfl rfl e, fun e _ => before_of_early rfl rfl e,
      h.order.of_cons⟩
  · obtain ⟨u, hu, hsampled⟩ := h.sampled
    exact ⟨u, List.mem_append_left _ hu, hsampled⟩
  · intro u hu samples hsamples x hx
    rw [hevents]
    have hearlier := mem_of_collected hu hnone hsamples
    rcases h.summaries u hearlier samples hsamples x hx with hmem | hset
    · rcases List.mem_cons.mp hmem with hhead | hmem
      · contradiction
      · exact .inl (List.mem_append_right _ hmem)
    · exact .inr hset
  · -- the hardware clock is read once
    rintro ⟨e, he, hphc⟩
    rcases mem_phcEffects he with ⟨_, _, rfl⟩ | he
    · contradiction
    · have hbefore := List.rel_of_pairwise_cons h.order he
      cases e with
      | phcOffset => exact absurd hbefore id
      | _ => contradiction
  · exact h.grown.congr hsettle

private theorem FusionStep.stage {a : FusionAction} {es : List FusionEvent}
    (hstep : FusionStep cfg F a F' es) (hbusy : F.task ≠ .idle)
    (hnew : ∀ stamp samples, a = .fuse stamp → F.task.collected? = some samples → samples ≠ [] →
      NewStamp cfg m stamp)
    (h : Stage cfg F₀ m₀ hist F m F.task) :
    Stage cfg F₀ m₀ (hist ++ [⟨F, a, es, F'⟩]) F' (stored cfg m es) F'.task := by
  have hsettle : ∀ (hfuse : ∀ ts, a ≠ .fuse ts)
      (hclock : ∀ c c', a = .phcOffset c c' → phcSystemOffset cfg.phcDevice c c' ≠ none),
      (settled (stored cfg m es) F'.task.effects).get (.series (.fused .ewma)) =
        (settled m F.task.effects).get (.series (.fused .ewma)) :=
    fun hfuse hclock => hstep.settles hfuse hclock m (.series .ewma)
  cases hstep with
  | skip now hidle
  | tick now hidle => exact absurd hidle hbusy
  | failed hreads => exact (h.untouched hreads).fail (FusionTask.collected_of_reads hreads)
  | sparse htask
  | enough htask
  | delays entries htask
  | jitters entries htask =>
    rw [htask] at h
    exact Untouched.read h (by rw [htask]; rfl) not_errs_recent
  | panic ts htask hfuse =>
    rw [htask] at h
    obtain ⟨hne, htrim⟩ := fuseSamples_eq_none_iff.mp hfuse
    exact Untouched.panic h htask hne htrim
  | nothing ts htask hfuse =>
    rw [htask] at h
    rcases fuseSamples_cases hfuse with ⟨rfl, _, rfl⟩ | ⟨_, _, _, hout, _⟩
    · exact Untouched.finish h htask
    · contradiction
  | @fuse since samples ewma f ts htask hfuse =>
    rw [htask] at h
    rcases fuseSamples_cases hfuse with ⟨_, hout, _⟩ | ⟨_, hne, _⟩
    · contradiction
    · have htrim : cfg.filter.trimRatio < 1 := by
        by_contra hle
        rw [fuseSamples_eq_none_iff.mpr ⟨hne, not_lt.mp hle⟩] at hfuse
        contradiction
      exact Untouched.fuse h htask hne htrim (hnew ts samples rfl (by rw [htask]; rfl) hne)
  | tsAdd htask
  | slew htask
  | hmSet htask =>
    rw [htask, effects_afterEffects] at hsettle
    rw [htask] at h
    apply Publishing.next h htask (by simp) (by simp) (by simp)
    exact hsettle (by simp) (by simp)
  | phcFailed htask hread =>
    rw [htask] at h
    exact Publishing.fail h hread
  | phcAbsent htask hread =>
    rw [htask, effects_afterEffects] at hsettle
    rw [htask] at h
    apply Publishing.next h htask (by simp [hread]) (by simp) (by simp)
    exact hsettle (by simp) (by simp [hread])
  | phcRead htask hread =>
    rw [htask] at hsettle h
    apply Publishing.readPhc h htask (by simp [hread])
    exact hsettle (by simp) (by simp [hread])

private theorem FusionStep.begin {now : UInt64} {es : List FusionEvent}
    (hstep : FusionStep cfg F (.tick now) F' es) :
    Stage cfg F m [⟨F, .tick now, es, F'⟩] F' (stored cfg m es) F'.task := by
  cases hstep with
  | skip now hidle =>
    have hnone : F.task.collected? = none := by rw [hidle]; rfl
    rw [hidle]
    refine Outcome.done ?_ ?_
    · rw [List.forall_mem_singleton]
      exact sound_of_no_error (by simp [Errs]) hnone
    · intro u hu samples hsamples
      obtain rfl := List.mem_singleton.mp hu
      rw [hnone] at hsamples
      contradiction
  | tick now hidle =>
    have hnone : F.task.collected? = none := by rw [hidle]; rfl
    exact ⟨rfl, rfl, fun _ _ => rfl, rfl, by simp [hnone], by simp [Errs]⟩

end Stages

/-! ## All or nothing -/

/-- An iteration from its tick on until it is over, with the turns of all others in between. -/
structure IterationTurns (cfg : Config) (t : SiteTurn cfg) (rest : List (SiteTurn cfg))
    (s : NodesState fun _ : Unit => cfg) : Prop where
  begins : ∃ now, t.action = .member (fusionPart cfg) (.tick now)
  busy : ∀ u ∈ view (fusionPart cfg) rest, u.before.task ≠ .idle
  ends : (s.members (fusionPart cfg)).task = .idle ∨ (s.members (fusionPart cfg)).task = .panicked

/-- An iteration that returns an error has left the average, the ring, the fused series and the
clock alone, and any other one leaves a summary of the newest value, and one of each sample. -/
def AllOrNothing (cfg : Config) (s₀ s : NodesState fun _ : Unit => cfg)
    (hist : List FusionTurn) : Prop :=
  ((∃ u ∈ hist, Errs cfg u) ∧ Unchanged (s₀.members (fusionPart cfg)) (s.members (fusionPart cfg))
    s₀.medium s.medium (events hist)) ∨
    (Consistent s.medium ∧ Refreshed cfg hist)

theorem run_stage {us rest : List (SiteTurn cfg)} {t : SiteTurn cfg}
    (hbegun : (nodes parse fun _ : Unit => cfg).toMachine.Run (Nodes.init _ m) (us ++ [t]) t.after)
    (hrun : (nodes parse fun _ : Unit => cfg).toMachine.Run t.after rest s)
    (hstart : Stage cfg (t.before.members (fusionPart cfg)) t.before.medium
      (view (fusionPart cfg) [t]) (t.after.members (fusionPart cfg)) t.after.medium
      (t.after.members (fusionPart cfg)).task)
    (hquiet : ∀ u ∈ rest, Undisturbed u) (hrise : ∀ u ∈ rest, StampsRise u)
    (hbusy : ∀ u ∈ view (fusionPart cfg) rest, u.before.task ≠ .idle) :
    Stage cfg (t.before.members (fusionPart cfg)) t.before.medium
      (view (fusionPart cfg) ([t] ++ rest)) (s.members (fusionPart cfg)) s.medium
      (s.members (fusionPart cfg)).task := by
  induction hrun with
  | start =>
    rw [List.append_nil]
    exact hstart
  | @turn rest s s' a es hrun hstep ih =>
    rw [view_append, List.forall_mem_append] at hbusy
    rw [List.forall_mem_append, List.forall_mem_singleton] at hquiet hrise
    have hstage := ih hquiet.1 hrise.1 hbusy.1
    rw [← List.append_assoc, view_append]
    rcases site_turn (hbegun.append hrun) hstep hquiet.2 with ⟨hview, hsame, hstore⟩ |
      ⟨b, fs, rfl, hlocal, hview, hmedium⟩
    · rw [hview, List.append_nil, hsame]
      exact hstage.congr hstore
    · rw [hview, List.forall_mem_singleton] at hbusy
      rw [hview, hmedium]
      apply hlocal.stage hbusy.2 _ hstage
      intro stamp samples haction
      exact hrise.2 stamp samples (congrArg _ haction)

private theorem iteration_outcome {us rest : List (SiteTurn cfg)} {t : SiteTurn cfg}
    (hrun : (nodes parse fun _ : Unit => cfg).toMachine.Run (Nodes.init _ m) (us ++ t :: rest) s)
    (hquiet : ∀ u ∈ us ++ t :: rest, Undisturbed u) (hrise : ∀ u ∈ us ++ t :: rest, StampsRise u)
    (hiter : IterationTurns cfg t rest s) :
    Outcome cfg (t.before.members (fusionPart cfg)) t.before.medium
      (view (fusionPart cfg) (t :: rest)) (s.members (fusionPart cfg)) s.medium := by
  obtain ⟨hbefore, hstep, hbegun⟩ := hrun.middle
  obtain ⟨now, haction⟩ := hiter.begins
  have hstart : Stage cfg (t.before.members (fusionPart cfg)) t.before.medium
      (view (fusionPart cfg) [t]) (t.after.members (fusionPart cfg)) t.after.medium
      (t.after.members (fusionPart cfg)).task := by
    rcases site_turn hbefore hstep (hquiet t (by simp)) with ⟨hview, _⟩ |
      ⟨b, fs, hb, hlocal, hview, hmedium⟩
    · obtain ⟨u, hu, _⟩ := mem_view_of_action (List.mem_singleton_self t) haction
      rw [show view (fusionPart cfg) [t] = [] from hview] at hu
      contradiction
    · obtain ⟨_, hsame⟩ := Move.member.inj (hb.symm.trans haction)
      obtain rfl := eq_of_heq hsame
      rw [show view (fusionPart cfg) [t] = _ from hview, hmedium]
      exact hlocal.begin
  have hstage := run_stage hbegun hrun.rest hstart
    (fun u hu => hquiet u (List.mem_append_right _ (List.mem_cons_of_mem _ hu)))
    (fun u hu => hrise u (List.mem_append_right _ (List.mem_cons_of_mem _ hu))) hiter.busy
  rcases hiter.ends with hend | hend
  all_goals
    rw [hend] at hstage
    exact hstage

private theorem AllOrNothing.sound {s₀ : NodesState fun _ : Unit => cfg} {hist : List FusionTurn}
    (hall : AllOrNothing cfg s₀ s hist)
    (houtcome : Outcome cfg (s₀.members (fusionPart cfg)) s₀.medium hist
      (s.members (fusionPart cfg)) s.medium) : ∀ u ∈ hist, Sound cfg u := by
  cases houtcome with
  | failed _ hsound => exact hsound
  | done hsound => exact hsound
  | broken hunsound hstale hchanged =>
    rcases hall with ⟨herr, hsame⟩ | ⟨_, hrefreshed⟩
    · exact absurd (hsame.series .ewma) (hchanged herr).ne
    · exact absurd hrefreshed hstale

/-- As long as the turns before have been sound, an iteration is all or nothing exactly if its own
turns are sound: the clocks can be read, and its samples are not trimmed altogether. -/
theorem iteration_atomic_iff {us rest : List (SiteTurn cfg)} {t : SiteTurn cfg}
    (hrun : (nodes parse fun _ : Unit => cfg).toMachine.Run (Nodes.init _ m) (us ++ t :: rest) s)
    (hstart : Consistent m) (hquiet : ∀ u ∈ us ++ t :: rest, Undisturbed u)
    (hrise : ∀ u ∈ us ++ t :: rest, StampsRise u)
    (hearlier : ∀ u ∈ view (fusionPart cfg) us, Sound cfg u)
    (hiter : IterationTurns cfg t rest s) :
    AllOrNothing cfg t.before s (view (fusionPart cfg) (t :: rest)) ↔
      ∀ u ∈ view (fusionPart cfg) (t :: rest), Sound cfg u := by
  have houtcome := iteration_outcome hrun hquiet hrise hiter
  constructor
  · intro hall
    exact hall.sound houtcome
  · intro hsound
    cases houtcome with
    | failed herr _ hsame => exact .inl ⟨herr, hsame⟩
    | done _ hrefreshed =>
      refine .inr ⟨?_, hrefreshed⟩
      have hall : ∀ u ∈ view (fusionPart cfg) (us ++ t :: rest), Sound cfg u := by
        rw [view_append, List.forall_mem_append]
        exact ⟨hearlier, hsound⟩
      have hsettled := run_consistent hrun hstart hquiet hrise hall
      rcases hiter.ends with hend | hend
      all_goals
        rw [hend] at hsettled
        exact hsettled
    | broken hunsound =>
      obtain ⟨u, hu, hnot⟩ := hunsound
      exact absurd (hsound u hu) hnot

/-- A node with a hardware clock and one server. -/
def clockConfig : Config := { controlConfig with phcDevice := some "/dev/ptp0" }

/-- The device opens, and the clock cannot be read. -/
def brokenClocks : Clocks := { opens := true, gettime := fun _ => none }

abbrev ClockMove : Type :=
  Move (fun i : PartIn (fun _ : Unit => clockConfig) => i.2.Action) SharedDrift

/-- The offset of the server is measured and stored. -/
def pollActions : List PollerAction := exchangeActions 0 ++ [.publish]

/-- The rest of an iteration that reads it, with the clocks as it finds them. -/
def fuseActions (c : Clocks) (writes : Nat) : List FusionAction :=
  let since := requestUtc + 1000000000 - 30000000000
  [.recent (.ntp 11 .offset) since 1 (some storedEntries),
    .recent (.ntp 11 .delay) since 1 (some []), .recent (.ntp 11 .jitter) since 1 (some []),
    .fuse (requestUtc + 1000000000)] ++ List.replicate 3 .publish ++ [.phcOffset c c] ++
    List.replicate writes .publish

def ofPoller (a : PollerAction) : ClockMove :=
  .member ⟨(), .poller ⟨0, Nat.one_pos⟩⟩ (ComparingAction.own a)

def ofFusion (a : FusionAction) : ClockMove := .member (fusionPart clockConfig) a

def clockMoves (c : Clocks) (writes : Nat) : List ClockMove :=
  pollActions.map ofPoller ++
    ofFusion (.tick (requestUtc + 1000000000)) :: (fuseActions c writes).map ofFusion

def clockNode := nodes (fun _ _ => none) fun _ : Unit => clockConfig

def clockTurns (c : Clocks) (writes : Nat) : List (SiteTurn clockConfig) :=
  clockNode.toMachine.turnsOf (Nodes.init _ emptyShared) (clockMoves c writes)

/-- The clock is broken in an iteration that then ends, or absent in one that goes on. -/
def ClockCase (c : Clocks) (writes : Nat) : Prop :=
  c = brokenClocks ∧ writes = 0 ∨ c = .unreadable ∧ writes = 3

/-- What is fused is stamped after the tick, and there is no average before. -/
def stampsLate (t : SiteTurn clockConfig) : Bool :=
  match t.action with
  | .member ⟨(), .fusion⟩ (.fuse stamp) =>
    stamp = requestUtc + 1000000000 && t.before.medium.series (.fused .ewma) = []
  | _ => true

/-- The hardware clock is read without an error. -/
def readsClock (t : SiteTurn clockConfig) : Bool :=
  match t.action with
  | .member ⟨(), .fusion⟩ (.phcOffset c c') =>
    (phcSystemOffset clockConfig.phcDevice c c').isSome
  | _ => true

private theorem clock_runs {c : Clocks} {writes : Nat} (h : ClockCase c writes) :
    ∃ us t rest s, clockTurns c writes = us ++ t :: rest ∧
      clockNode.toMachine.Run (Nodes.init _ emptyShared) (us ++ t :: rest) s ∧
      rest.map Turn.action = (fuseActions c writes).map ofFusion ∧
      IterationTurns clockConfig t rest s := by
  have hexec : (clockNode.toMachine.exec (Nodes.init _ emptyShared)
      (clockMoves c writes)).isSome = true := by
    rcases h with ⟨rfl, rfl⟩ | ⟨rfl, rfl⟩ <;> decide +kernel
  have hends : ((clockNode.toMachine.stateAfter (Nodes.init _ emptyShared)
      (clockMoves c writes)).members (fusionPart clockConfig)).task = .idle := by
    rcases h with ⟨rfl, rfl⟩ | ⟨rfl, rfl⟩ <;> decide +kernel
  have hbusy : ((clockTurns c writes).drop 4).all (fun t =>
      decide ((t.before.members (fusionPart clockConfig)).task ≠ .idle)) = true := by
    rcases h with ⟨rfl, rfl⟩ | ⟨rfl, rfl⟩ <;> decide +kernel
  have hactions : (clockTurns c writes).map Turn.action = clockMoves c writes :=
    turnsOf_actions hexec
  have hrun : clockNode.toMachine.Run (Nodes.init _ emptyShared) (clockTurns c writes) _ :=
    Run.of_actions hexec
  obtain ⟨us, later, hturns, hus, hlater⟩ := List.map_eq_append_iff.mp hactions
  obtain ⟨t, rest, rfl, ht, hrest⟩ := List.map_eq_cons_iff.mp hlater
  refine ⟨us, t, rest, _, hturns, hturns ▸ hrun, hrest, ⟨_, ht⟩, ?_, .inl hends⟩
  have hlength : (us ++ [t]).length = 4 := by
    have hsame := congrArg List.length hus
    simpa [pollActions, exchangeActions] using hsame
  have hdrop : (clockTurns c writes).drop 4 = rest := by
    rw [hturns, ← List.singleton_append, ← List.append_assoc, List.drop_left' hlength]
  rw [hdrop] at hbusy
  intro u hu
  obtain ⟨v, hv, _, hbefore⟩ := mem_view hu
  rw [← hbefore]
  exact of_decide_eq_true (List.all_eq_true.mp hbusy v hv)

private theorem clock_undisturbed (c : Clocks) (writes : Nat) :
    ∀ u ∈ clockTurns c writes, Undisturbed u := by
  intro u hu d hd
  have hmove := action_mem_of_turnsOf hu
  rw [hd] at hmove
  simp [clockMoves, ofPoller, ofFusion] at hmove

private theorem clock_stamps {c : Clocks} {writes : Nat} (h : ClockCase c writes) :
    ∀ u ∈ clockTurns c writes, StampsRise u := by
  have hall : (clockTurns c writes).all stampsLate = true := by
    rcases h with ⟨rfl, rfl⟩ | ⟨rfl, rfl⟩ <;> decide +kernel
  intro u hu stamp samples haction _ _
  have hlate := List.all_eq_true.mp hall u hu
  simp only [stampsLate, haction, Bool.and_eq_true, decide_eq_true_eq] at hlate
  obtain ⟨rfl, hnone⟩ := hlate
  refine ⟨?_, by decide +kernel⟩
  rw [hnone]
  simp

private theorem clock_sound :
    ∀ u ∈ view (fusionPart clockConfig) (clockTurns .unreadable 3), Sound clockConfig u := by
  have hall : (clockTurns .unreadable 3).all readsClock = true := by decide +kernel
  intro u hu
  obtain ⟨v, hv, haction, _⟩ := mem_view hu
  refine ⟨?_, fun _ _ _ => by decide +kernel⟩
  intro c c' hread hnone
  have hclock := List.all_eq_true.mp hall v hv
  rw [hread] at haction
  simp only [readsClock, haction, hnone] at hclock
  contradiction

/-- Without a hardware clock the iteration publishes all it has. -/
theorem iteration_atomic_absent :
    ∃ us t rest s, clockTurns .unreadable 3 = us ++ t :: rest ∧
      AllOrNothing clockConfig t.before s (view (fusionPart clockConfig) (t :: rest)) := by
  obtain ⟨us, t, rest, s, hturns, hrun, _, hiter⟩ := clock_runs (.inr ⟨rfl, rfl⟩)
  have hsound := clock_sound
  have hquiet := clock_undisturbed .unreadable 3
  have hrise := clock_stamps (.inr ⟨rfl, rfl⟩)
  rw [hturns] at hquiet hrise hsound
  rw [view_append, List.forall_mem_append] at hsound
  have hstart : Consistent emptyShared := by
    intro reply hlast
    cases reply with
    | none => rfl
    | some e => exact absurd hlast.1 List.not_mem_nil
  exact ⟨us, t, rest, s, hturns,
    (iteration_atomic_iff hrun hstart hquiet hrise hsound.1 hiter).mpr hsound.2⟩

/-- An iteration whose hardware clock cannot be read has pushed the average and published it, and
then returns an error without the summaries. -/
theorem iteration_not_atomic :
    ¬ ∀ us t rest s,
      clockNode.toMachine.Run (Nodes.init _ emptyShared) (us ++ t :: rest) s →
      (∀ u ∈ us ++ t :: rest, Undisturbed u ∧ StampsRise u) → IterationTurns clockConfig t rest s →
      AllOrNothing clockConfig t.before s (view (fusionPart clockConfig) (t :: rest)) := by
  intro hatomic
  obtain ⟨us, t, rest, s, hturns, hrun, hactions, hiter⟩ := clock_runs (.inl ⟨rfl, rfl⟩)
  have hquiet := clock_undisturbed brokenClocks 0
  have hrise := clock_stamps (.inl ⟨rfl, rfl⟩)
  rw [hturns] at hquiet hrise
  have hall := hatomic us t rest s hrun (fun u hu => ⟨hquiet u hu, hrise u hu⟩) hiter
  have hsound := hall.sound (iteration_outcome hrun hquiet hrise hiter)
  have hread : ofFusion (.phcOffset brokenClocks brokenClocks) ∈ rest.map Turn.action := by
    rw [hactions]
    exact List.mem_map_of_mem (by simp [fuseActions])
  obtain ⟨v, hv, haction⟩ := List.mem_map.mp hread
  obtain ⟨u, hu, hact⟩ := mem_view_of_action (List.mem_cons_of_mem t hv) haction
  exact (hsound u hu).clock _ _ hact rfl

end Zeitpeer
