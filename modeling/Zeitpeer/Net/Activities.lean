import Zeitpeer.Framework.Activity
import Zeitpeer.Net.Leftovers
import Zeitpeer.Net.Load

/-!
# Every activity of a node ends

A pass of the client loop, a datagram, an iteration of the fusion loop, a poll and a response are
each under way for a bounded number of turns of their own, and none can be kept from its next turn:
not by other tasks, not by other nodes, and not by what the store or the network do.
-/

namespace Zeitpeer

open Framework Machine Ensemble Activity

variable {cfg : Config}

/-- The turns for an effect: a hardware clock that is read adds two writes. -/
def Effect.turns : Effect → Nat
  | .phcOffset _ _ => 3
  | _ => 1

def effectTurns (effects : List Effect) : Nat := (effects.map Effect.turns).sum

/-- Four turns for a source, with its summary, and what is published besides. -/
def FusionTask.left : FusionTask → Nat
  | .collecting _ todo samples => 4 * todo.length + samples.length + 11
  | .delays _ _ _ todo samples => 4 * todo.length + samples.length + 14
  | .jitters _ _ _ _ todo samples => 4 * todo.length + samples.length + 13
  | .publishing effects => effectTurns effects
  | _ => 0

def iterations (cfg : Config) : Activity FusionState FusionAction where
  own _ := true
  settled s := s.task = .idle ∨ s.task = .panicked
  cost _ := 4 * (sources cfg).length + 11

@[simp] theorem effectTurns_cons (e : Effect) (effects : List Effect) :
    effectTurns (e :: effects) = e.turns + effectTurns effects := by
  simp [effectTurns]

private theorem effectTurns_append (effects effects' : List Effect) :
    effectTurns (effects ++ effects') = effectTurns effects + effectTurns effects' := by
  simp [effectTurns]

@[simp] theorem left_publishing (effects : List Effect) :
    (FusionTask.publishing effects).left = effectTurns effects := rfl

@[simp] theorem left_afterEffects (rest : List Effect) :
    (afterEffects rest).left = effectTurns rest := by
  cases rest <;> rfl

private theorem effectTurns_publishEffects (cfg : Config) (ts : UInt64) (f : Fused) (ring : Ring)
    (samples : List PeerSample) :
    effectTurns (publishEffects cfg ts f ring samples) < samples.length + 11 := by
  have hdrift : effectTurns (driftEffects cfg ts f.smoothed ring) ≤ 2 := by
    unfold driftEffects
    split
    · split <;> simp [effectTurns, fusedAdd, Effect.turns]
    · simp [effectTurns]
  have hsummaries : effectTurns (samples.map (sampleSummary cfg)) = samples.length := by
    simp [effectTurns, Function.comp_def, sampleSummary, Effect.turns]
  have hself : effectTurns (if cfg.peers.any fun p => p.id = cfg.nodeId then
      [.hmSet { key := .peerSelf cfg.nodeId, fields := [("last_ewma_ns", f.smoothed)] }]
      else []) ≤ 1 := by
    split <;> simp [effectTurns, Effect.turns]
  have hfused : effectTurns [fusedAdd cfg .offset ts f.stats.meanOffsetNs,
      fusedAdd cfg .delay ts f.stats.meanDelayNs, fusedAdd cfg .ewma ts f.smoothed] = 3 := rfl
  have hreport : effectTurns (reportEffects cfg ts f samples) ≤ samples.length + 5 := by
    rw [reportEffects, ← List.singleton_append, effectTurns_append, effectTurns_append,
      effectTurns_append, hsummaries]
    have hphc : effectTurns [.phcOffset ts f.smoothed] = 3 := rfl
    have hsummary : effectTurns [fusedSummary f] = 1 := rfl
    omega
  rw [publishEffects, fusedEffects, effectTurns_append, effectTurns_append, hfused]
  omega

/-- An iteration publishes something as long as it publishes. -/
theorem run_publishing {ts : List FusionTurn} {s : FusionState}
    (hrun : (fusion cfg).Run (.init cfg) ts s) : s.task ≠ .publishing [] := by
  refine hrun.invariant (I := fun _ s => s.task ≠ .publishing []) (by simp [FusionState.init]) ?_
  intro ts s a s' es _ ih hstep
  have hafter : ∀ rest, afterEffects rest ≠ .publishing [] := by
    intro rest
    cases rest <;> simp [afterEffects]
  cases FusionStep.of_step hstep with
  | skip => exact ih
  | fuse => simp [publishEffects, fusedEffects]
  | tsAdd
  | slew
  | hmSet
  | phcAbsent => exact hafter _
  | phcRead => simp [phcEffects]
  | _ => simp

private theorem FusionStep.left_lt {s s' : FusionState} {a : FusionAction} {es : List FusionEvent}
    (hstep : FusionStep cfg s a s' es) (hbusy : (iterations cfg).settled s = false) :
    s'.task.left < s.task.left := by
  have hidle : s.task ≠ .idle := fun h => by simp [iterations, h] at hbusy
  cases hstep with
  | skip now htask
  | tick now htask => exact absurd htask hidle
  | failed hreads =>
    cases htask : s.task with
    | collecting since todo samples => simp [FusionTask.left]
    | delays
    | jitters => simp [FusionTask.left]
    | _ => simp [htask, FusionTask.reads] at hreads
  | @fuse since samples ewma f ts htask =>
    have hless := effectTurns_publishEffects cfg ts f
      (pushRing s.ring (ts, F64.toI64 f.smoothed)) samples
    rw [htask]
    simpa [FusionTask.left] using hless
  | tsAdd htask
  | slew htask
  | hmSet htask
  | phcAbsent htask =>
    rw [htask, left_afterEffects, left_publishing, effectTurns_cons]
    simp [Effect.turns]
  | phcFailed htask =>
    rw [htask, left_publishing, effectTurns_cons]
    simp [FusionTask.left, Effect.turns]
  | phcRead htask =>
    rw [htask, left_publishing, left_publishing, effectTurns_cons, effectTurns_append]
    simp [phcEffects, effectTurns, Effect.turns]
  | sparse htask
  | enough htask
  | delays entries htask
  | jitters entries htask =>
    rw [htask]
    simp only [FusionTask.left, List.length_cons, List.length_append, List.length_nil]
    omega
  | panic ts htask
  | nothing ts htask =>
    rw [htask]
    simp [FusionTask.left]

private theorem FusionStep.left_le {s s' : FusionState} {a : FusionAction} {es : List FusionEvent}
    (hstep : FusionStep cfg s a s' es) (hsettled : (iterations cfg).settled s = true) :
    s'.task.left ≤ (iterations cfg).cost s := by
  have htask : s.task = .idle ∨ s.task = .panicked := by simpa [iterations] using hsettled
  cases hstep with
  | skip => rcases htask with htask | htask <;> simp [htask, FusionTask.left]
  | tick => simp [FusionTask.left, iterations]
  | failed hreads => rcases htask with htask | htask <;> simp [htask, FusionTask.reads] at hreads
  | _ => simp_all

private theorem fusion_reads {s : FusionState} {key : SeriesKey} {since : UInt64}
    (hreads : s.task.reads = some (key, since)) (m : Shared) :
    ∃ a, ((Part.fusion : PartOf cfg).read? a).all m.answers = true ∧
      ((fusion cfg).step s a).isSome = true := by
  refine ⟨.recent key since (readLimit cfg)
    (some (recentReply (m.series key) since (readLimit cfg))), ?_, ?_⟩
  · exact decide_eq_true (isRecent_recentReply _ _ _)
  · simp [fusion, fusionStep, hreads]

private theorem fusion_moves {ts : List FusionTurn} {s : FusionState}
    (hrun : (fusion cfg).Run (.init cfg) ts s) (hbusy : (iterations cfg).settled s = false)
    (m : Shared) : ∃ a, ((Part.fusion : PartOf cfg).read? a).all m.answers = true ∧
      ((fusion cfg).step s a).isSome = true := by
  cases htask : s.task with
  | idle
  | panicked => simp [iterations, htask] at hbusy
  | collecting since todo samples =>
    cases todo with
    | nil =>
      refine ⟨.fuse 0, rfl, ?_⟩
      simp only [fusion, fusionStep, htask]
      cases fuseSamples cfg.filter s.ewma samples with
      | none => rfl
      | some out =>
        obtain ⟨_ | f, ewma⟩ := out <;> rfl
    | cons src todo => exact fusion_reads (congrArg FusionTask.reads htask) m
  | delays
  | jitters => exact fusion_reads (congrArg FusionTask.reads htask) m
  | publishing effects =>
    cases effects with
    | nil => exact absurd htask (run_publishing hrun)
    | cons e rest =>
      cases e with
      | phcOffset ts smoothed =>
        refine ⟨.phcOffset .unreadable .unreadable, rfl, ?_⟩
        simp [fusion, fusionStep, htask, phcSystemOffset_unreadable]
      | _ => exact ⟨.publish, rfl, by simp [fusion, fusionStep, htask]⟩

def iterationsVariant (cfg : Config) : Variant (iterations cfg) (fusion cfg) (.init cfg)
    fun (m : Shared) a => ((Part.fusion : PartOf cfg).read? a).all m.answers where
  left s := s.task.left
  begins hstep _ hsettled := (FusionStep.of_step hstep).left_le hsettled
  spends hstep _ hbusy := (FusionStep.of_step hstep).left_lt hbusy
  keeps _ hown := Bool.noConfusion (hown : true = false)
  moves hrun hbusy m := by
    obtain ⟨a, hallow, hsome⟩ := fusion_moves hrun hbusy m
    exact ⟨a, rfl, hallow, hsome⟩

/-- A turn for each read, and one to send the body. -/
def HandlerTask.left : HandlerTask → Nat
  | .idle => 0
  | .health _ => 1
  | .metrics _ todo _ => todo.length + 1

def responses (cfg : Config) : Activity HandlerTask HandlerAction where
  own _ := true
  settled task := task = .idle
  cost _ := (metricsQueries cfg).length + 1

private theorem exists_isLast (entries : List Entry) : ∃ reply, IsLast entries reply := by
  induction entries with
  | nil => exact ⟨none, rfl⟩
  | cons e entries ih =>
    obtain ⟨reply, hlast⟩ := ih
    cases reply with
    | none =>
      obtain rfl : entries = [] := hlast
      exact ⟨some e, by simp [IsLast]⟩
    | some x =>
      obtain ⟨hmem, hmax⟩ := hlast
      by_cases hle : e.score ≤ x.score
      · exact ⟨some x, List.mem_cons_of_mem _ hmem, List.forall_mem_cons.mpr ⟨hle, hmax⟩⟩
      · refine ⟨some e, List.mem_cons_self, List.forall_mem_cons.mpr ⟨le_rfl, ?_⟩⟩
        exact fun y hy => (hmax y hy).trans (Nat.le_of_not_le hle)

private theorem handler_moves {task : HandlerTask} (hbusy : (responses cfg).settled task = false)
    (m : Shared) :
    ∃ a : HandlerAction, a.read?.all m.answers = true ∧
      ((handler cfg).step task a).isSome = true := by
  cases task with
  | idle => simp [responses] at hbusy
  | health now =>
    obtain ⟨reply, hlast⟩ := exists_isLast (m.series (.fused .ewma))
    exact ⟨.last (.fused .ewma) (some reply), decide_eq_true hlast, rfl⟩
  | metrics since todo answers =>
    match todo with
    | [] => exact ⟨.respond, rfl, rfl⟩
    | .recent key :: todo =>
      refine ⟨.recent key since METRIC_LOOKBACK_LIMIT
        (some (recentReply (m.series key) since METRIC_LOOKBACK_LIMIT)), ?_, ?_⟩
      · simp [HandlerAction.read?, Shared.answers, isRecent_recentReply]
      · simp [handler, handlerStep]
    | .getAll key :: todo =>
      refine ⟨.getAll key (some (m.hashes key)), decide_eq_true rfl, ?_⟩
      simp [handler, handlerStep]
    | .last key :: todo =>
      obtain ⟨reply, hlast⟩ := exists_isLast (m.series key)
      refine ⟨.last key (some reply), decide_eq_true hlast, ?_⟩
      simp [handler, handlerStep]

def responsesVariant (cfg : Config) : Variant (responses cfg) (handler cfg) .idle
    fun (m : Shared) a => (HandlerAction.read? a).all m.answers where
  left := HandlerTask.left
  begins hstep _ hsettled := by
    cases HandlerStep.of_step hstep with
    | health => exact Nat.le_add_left 1 _
    | metrics => exact Nat.le_refl _
    | _ => simp [responses] at hsettled
  spends hstep _ hbusy := by
    cases HandlerStep.of_step hstep with
    | health
    | metrics => simp [responses] at hbusy
    | _ => simp [HandlerTask.left]
  keeps _ hown := Bool.noConfusion (hown : true = false)
  moves _ hbusy m := by
    obtain ⟨a, hallow, hsome⟩ := handler_moves hbusy m
    exact ⟨a, rfl, hallow, hsome⟩

/-! ## A poll -/

/-- The turns for an effect: the comparison reads the other summaries first. -/
def PollerEffect.turns (others : Nat) : PollerEffect → Nat
  | .tsAdd _ => 1
  | .systemNow => 3
  | .compare => others + 2
  | .ping => 2
  | .hmSet => 1

def pollTurns (others : Nat) (effects : List PollerEffect) : Nat :=
  (effects.map (PollerEffect.turns others)).sum

def PollerTask.turns (others : Nat) : PollerTask → Nat
  | .waiting => 0
  | .exchanging _ => others + 14
  | .storing _ todo _ => pollTurns others todo

/-- What a poll has left, less the summaries that its comparison has read. -/
def Comparing.left (cfg : Config) (src : NtpSource) (s : Comparing) : Nat :=
  s.poller.task.turns (comparedKeys cfg src).length -
    (if s.poller.task.compares then s.asked else 0)

def polls (cfg : Config) (src : NtpSource) : Activity Comparing ComparingAction where
  own _ := true
  settled s := s.poller.task = .waiting
  cost _ := (comparedKeys cfg src).length + 14

variable {src : NtpSource}

@[simp] theorem pollTurns_cons (others : Nat) (e : PollerEffect) (effects : List PollerEffect) :
    pollTurns others (e :: effects) = e.turns others + pollTurns others effects := by
  simp [pollTurns]

@[simp] theorem turns_storing (others : Nat) (m : Measured) (todo : List PollerEffect)
    (fields : List (String × F64)) :
    (PollerTask.storing m todo fields).turns others = pollTurns others todo := rfl

private theorem turns_withResult (others : Nat) (m : Measured) (metric : NtpMetric) (field : String)
    (result : Option F64) (todo : List PollerEffect) (fields : List (String × F64)) :
    (withResult cfg src m metric field result todo fields).turns others ≤
      pollTurns others todo + 1 := by
  cases result with
  | none => exact Nat.le_succ _
  | some val => simp [withResult, PollerTask.turns, ntpAdd, PollerEffect.turns, Nat.add_comm]

private theorem PollerStep.turns_lt {s s' : PollerState} {a : PollerAction} {es : List PollerEvent}
    (hstep : PollerStep cfg src s a s' es) (hbusy : s.task ≠ .waiting) (others : Nat) :
    s'.task.turns others + (if s.task.compares then others else 0) < s.task.turns others := by
  cases hstep with
  | unread c htask
  | request c htask
  | skipped htask => exact absurd htask hbusy
  | lost htask
  | rejected resp c htask
  | hmSet htask =>
    rw [htask]
    simp [PollerTask.turns, PollerTask.compares, PollerEffect.turns]
  | sampled resp c htask =>
    rw [htask]
    simp [PollerState.sampled, PollerTask.turns, PollerTask.compares, storeEffects, ntpAdd,
      PollerEffect.turns, pollTurns]
    omega
  | tsAdd htask =>
    rw [htask]
    simp [PollerTask.compares, PollerEffect.turns]
  | systemNow c htask =>
    rw [htask]
    simp only [withSystem, ntpAdd, turns_storing, PollerTask.compares, Bool.false_eq_true, if_false,
      pollTurns_cons, PollerEffect.turns]
    omega
  | @compare others' m rest fields htask =>
    have hmean : (withMean cfg src m others' rest fields).turns others ≤
        pollTurns others rest + 1 := turns_withResult others m _ _ _ rest fields
    rw [htask]
    simp only [turns_storing, PollerTask.compares, if_true, pollTurns_cons, PollerEffect.turns]
    omega
  | @ping ms m rest fields htask =>
    have hping : (withPing cfg src m ms rest fields).turns others ≤
        pollTurns others rest + 1 := turns_withResult others m _ _ _ rest fields
    rw [htask]
    simp only [turns_storing, PollerTask.compares, Bool.false_eq_true, if_false, pollTurns_cons,
      PollerEffect.turns]
    omega

private theorem turns_of_compares {task : PollerTask} (h : task.compares = true) (others : Nat) :
    others + 2 ≤ task.turns others := by
  match task, h with
  | .storing _ (.compare :: rest) _, _ =>
    simp only [turns_storing, pollTurns_cons, PollerEffect.turns]
    omega

private theorem PollerStep.compares {s s' : PollerState} {a : PollerAction} {es : List PollerEvent}
    (hstep : PollerStep cfg src s a s' es) (h : s.task.compares = true) :
    ∃ others, a = .compare others := by
  cases hstep with
  | compare others => exact ⟨others, rfl⟩
  | unread c htask
  | request c htask
  | skipped htask
  | lost htask
  | rejected resp c htask
  | sampled resp c htask
  | tsAdd htask
  | hmSet htask
  | systemNow c htask
  | ping ms htask => simp [htask, PollerTask.compares] at h

private theorem comparing_left_lt {s s' : Comparing} {a : ComparingAction} {es : List PollerEvent}
    (hstep : (comparing cfg src).step s a = some (s', es))
    (hbusy : (polls cfg src).settled s = false) : s'.left cfg src < s.left cfg src := by
  have htask : s.poller.task ≠ .waiting := by simpa [polls] using hbusy
  obtain ⟨b, p, rfl, hready, hlocal, rfl⟩ | ⟨key, reply, rfl, hcompares, hkey, rfl, rfl⟩ :=
    comparing_cases hstep
  · have hcases := PollerStep.of_step hlocal
    have hturns := hcases.turns_lt htask (comparedKeys cfg src).length
    have hle : (s.after p b).left cfg src ≤ p.task.turns (comparedKeys cfg src).length := by
      rw [Comparing.left, Comparing.after_poller]
      exact Nat.sub_le _ _
    cases hcompares : s.poller.task.compares with
    | false =>
      have hleft : s.left cfg src = s.poller.task.turns (comparedKeys cfg src).length := by
        simp [Comparing.left, hcompares]
      rw [hleft]
      omega
    | true =>
      obtain ⟨others, rfl⟩ := hcases.compares hcompares
      have hasked : s.asked = (comparedKeys cfg src).length := (of_decide_eq_true hready).1
      have hleft : s.left cfg src =
          s.poller.task.turns (comparedKeys cfg src).length - s.asked := by
        rw [Comparing.left, hcompares, if_pos rfl]
      rw [hcompares, if_pos rfl] at hturns
      omega
  · have hasked : s.asked < (comparedKeys cfg src).length :=
      (List.getElem?_eq_some_iff.mp hkey).1
    have hturns := turns_of_compares hcompares (comparedKeys cfg src).length
    simp only [Comparing.left, hcompares, if_true]
    omega

private theorem comparing_left_le {s s' : Comparing} {a : ComparingAction} {es : List PollerEvent}
    (hstep : (comparing cfg src).step s a = some (s', es))
    (hsettled : (polls cfg src).settled s = true) : s'.left cfg src ≤ (polls cfg src).cost s := by
  have htask : s.poller.task = .waiting := by simpa [polls] using hsettled
  obtain ⟨b, p, rfl, _, hlocal, rfl⟩ | ⟨key, reply, rfl, hcompares, _⟩ := comparing_cases hstep
  · rw [Comparing.left, Comparing.after_poller]
    refine (Nat.sub_le _ _).trans ?_
    cases PollerStep.of_step hlocal with
    | unread
    | skipped => simp [htask, PollerTask.turns]
    | request => exact Nat.le_refl _
    | _ => simp_all
  · simp [htask, PollerTask.compares] at hcompares

/-- A poll that stores ends with its summary. -/
theorem run_summary_ahead {ts : List PollerTurn} {s : PollerState}
    (hrun : (poller cfg src).Run {} ts s) :
    ∀ m todo fields, s.task = .storing m todo fields → .hmSet ∈ todo := by
  refine hrun.invariant (I := fun _ s => ∀ m todo fields, s.task = .storing m todo fields →
    .hmSet ∈ todo) (by simp) ?_
  intro ts s a s' es _ ih hstep m todo fields hstoring
  have hresult : ∀ {m' metric field result rest fields'}, .hmSet ∈ rest →
      withResult cfg src m' metric field result rest fields' = .storing m todo fields →
      .hmSet ∈ todo := by
    intro m' metric field result rest fields' hmem htask
    cases result <;> cases htask <;> simp [hmem]
  cases PollerStep.of_step hstep with
  | unread
  | skipped => exact ih _ _ _ hstoring
  | request
  | lost
  | rejected
  | hmSet => simp at hstoring
  | sampled =>
    obtain ⟨_, rfl, _⟩ := PollerTask.storing.inj hstoring
    simp [storeEffects]
  | tsAdd htask =>
    obtain ⟨_, rfl, _⟩ := PollerTask.storing.inj hstoring
    simpa using ih _ _ _ htask
  | systemNow c htask =>
    obtain ⟨_, rfl, _⟩ := PollerTask.storing.inj hstoring
    simpa [ntpAdd] using ih _ _ _ htask
  | compare others htask => exact hresult (by simpa using ih _ _ _ htask) hstoring
  | ping ms htask => exact hresult (by simpa using ih _ _ _ htask) hstoring

/-- A comparison reads no more summaries than there are. -/
theorem run_asked_le {ts : List ComparingTurn} {s : Comparing}
    (hrun : (comparing cfg src).Run {} ts s) : s.asked ≤ (comparedKeys cfg src).length := by
  refine hrun.invariant (I := fun _ s => s.asked ≤ (comparedKeys cfg src).length) (Nat.zero_le _) ?_
  intro ts s a s' es _ ih hstep
  obtain ⟨b, p, rfl, _, _, rfl⟩ | ⟨key, reply, rfl, _, hkey, _, rfl⟩ := comparing_cases hstep
  · cases b with
    | compare => exact Nat.zero_le _
    | _ => exact ih
  · exact (List.getElem?_eq_some_iff.mp hkey).1

private theorem comparing_moves {ts : List ComparingTurn} {s : Comparing}
    (hrun : (comparing cfg src).Run {} ts s) (hbusy : (polls cfg src).settled s = false)
    {k : Fin cfg.ntpSources.length} (m : Shared) :
    ∃ a, ((Part.poller k : PartOf cfg).read? a).all m.answers = true ∧
      ((comparing cfg src).step s a).isSome = true := by
  have hown : ∀ a, (∀ others, a ≠ .compare others) →
      (pollerStep cfg src s.poller a).isSome = true →
      ∃ a, ((Part.poller k : PartOf cfg).read? a).all m.answers = true ∧
        ((comparing cfg src).step s a).isSome = true := by
    intro a ha hsome
    have hready : s.ready cfg src a = true := by
      cases a with
      | compare others => exact absurd rfl (ha others)
      | _ => rfl
    exact ⟨.own a, rfl, by simpa [comparing, comparingStep, hready] using hsome⟩
  cases htask : s.poller.task with
  | waiting => simp [polls, htask] at hbusy
  | exchanging t1 => exact hown .failed (by simp) (by simp [pollerStep, htask])
  | storing measured todo fields =>
    cases todo with
    | nil => exact absurd (run_summary_ahead (run_own hrun).1 _ _ _ htask) List.not_mem_nil
    | cons effect rest =>
      cases effect with
      | tsAdd
      | hmSet => exact hown .publish (by simp) (by simp [pollerStep, htask])
      | systemNow => exact hown (.systemNow .unreadable) (by simp) (by simp [pollerStep, htask])
      | ping => exact hown (.ping none) (by simp) (by simp [pollerStep, htask])
      | compare =>
        rcases (run_asked_le hrun).lt_or_eq with hless | hall
        · refine ⟨.getAll (comparedKeys cfg src)[s.asked] (some (m.hashes _)),
            decide_eq_true rfl, ?_⟩
          simp [comparing, comparingStep, htask, PollerTask.compares, hless]
        · refine ⟨.own (.compare s.found), rfl, ?_⟩
          simp [comparing, comparingStep, pollerStep, htask, Comparing.ready, hall]

def pollsVariant (cfg : Config) (k : Fin cfg.ntpSources.length) :
    Variant (polls cfg (cfg.ntpSources.get k)) (comparing cfg (cfg.ntpSources.get k)) {}
      fun (m : Shared) a => ((Part.poller k : PartOf cfg).read? a).all m.answers where
  left := Comparing.left cfg (cfg.ntpSources.get k)
  begins hstep _ hsettled := comparing_left_le hstep hsettled
  spends hstep _ hbusy := comparing_left_lt hstep hbusy
  keeps _ hown := Bool.noConfusion (hown : true = false)
  moves hrun hbusy m := by
    obtain ⟨a, hallow, hsome⟩ := comparing_moves hrun hbusy m
    exact ⟨a, rfl, hallow, hsome⟩

/-! ## The loops of a node -/

def Action.isRx : Action → Bool
  | .rxRecv _ _ | .rxReadT2 _ _ | .rxReadT3 _ _ | .rxReply _ | .rxLatency _ | .rxReadT4 _ _
  | .rxTake | .rxRuntime | .rxStore => true
  | .txTick | .txDraw _ | .txSend _ | .txInsert | .txCleanup | .txSweep _ | .txExpire _
  | .advance _ => false

def Action.isTx : Action → Bool
  | .txTick | .txDraw _ | .txSend _ | .txInsert | .txCleanup | .txSweep _ | .txExpire _ => true
  | .rxRecv _ _ | .rxReadT2 _ _ | .rxReadT3 _ _ | .rxReply _ | .rxLatency _ | .rxReadT4 _ _
  | .rxTake | .rxRuntime | .rxStore | .advance _ => false

/-- What becomes of a datagram. -/
def receptions : Activity NodeState Action where
  own := Action.isRx
  settled s := s.rx = .listening
  cost _ := 7

/-- A pass over all targets, with the sweep after it. -/
def rounds (parse : String → UInt16 → Option SocketAddr) (cfg : Config) :
    Activity NodeState Action where
  own := Action.isTx
  settled s := s.tx = .waiting
  cost s := 4 * (probeTargets parse cfg).length + 2 + (Table.contents s.pending).card

/-- A round has its work left, and may find all requests of the map expired. -/
def NodeState.roundLeft (s : NodeState) : Nat := s.tx.work + (Table.contents s.pending).card

variable {parse : String → UInt16 → Option SocketAddr}

/-- What the loops do they do to the end. -/
theorem run_unfinished {ts : List NodeTurn} {s : NodeState} (hrun : (node parse cfg).Run {} ts s) :
    (∀ e, s.rx ≠ .storing e []) ∧ s.tx ≠ .expiring [] := by
  refine hrun.invariant (I := fun _ s => (∀ e, s.rx ≠ .storing e []) ∧ s.tx ≠ .expiring [])
    (by simp) ?_
  rintro ts s a s' es _ ⟨hrx, htx⟩ hstep
  cases NodeStep.of_step hstep with
  | advance
  | recvDrop => exact ⟨hrx, htx⟩
  | @sweep now expired => cases expired <;> simp [hrx]
  | @expire t rest => cases rest <;> simp [hrx]
  | @store e w rest => cases rest <;> simp [htx]
  | runtime => simp [sampleWrites, htx]
  | recvRequest
  | recvResponse
  | readT2
  | readT3
  | reply
  | replyFailed
  | latency
  | readT4
  | orphan
  | mismatch
  | «match» => simp [htx]
  | _ => simp [hrx]

private theorem NodeStep.rx_work {s s' : NodeState} {a : Action} {es : List Event}
    (hstep : NodeStep parse cfg s a s' es) :
    (a.isRx = false → s'.rx = s.rx) ∧ (a.isRx = true → s.rx = .listening → s'.rx.work ≤ 7) ∧
      (a.isRx = true → s.rx ≠ .listening → s'.rx.work < s.rx.work) := by
  cases hstep with
  | recvDrop src datagram hrx
  | recvRequest hrx
  | recvResponse hrx
  | readT2 phc sys hrx
  | readT3 phc sys hrx
  | reply hrx
  | replyFailed hrx
  | latency sys hrx
  | readT4 phc sys hrx
  | orphan hrx
  | mismatch hrx
  | «match» hrx
  | runtime hrx => simp [Action.isRx, hrx, RxTask.work, sampleWrites]
  | @store e w rest hrx => cases rest <;> simp [Action.isRx, hrx, RxTask.work]
  | _ => simp [Action.isRx]

private theorem NodeStep.tx_work {s s' : NodeState} {a : Action} {es : List Event}
    (hstep : NodeStep parse cfg s a s' es) :
    (a.isTx = false → s'.roundLeft ≤ s.roundLeft) ∧
      (a.isTx = true → s.tx = .waiting → s'.roundLeft ≤ (rounds parse cfg).cost s) ∧
      (a.isTx = true → s.tx ≠ .waiting → s'.roundLeft < s.roundLeft) := by
  cases hstep with
  | tickIdle htx
  | tick htx => simp [Action.isTx, htx, NodeState.roundLeft, TxTask.work, rounds]
  | drawFailed htx
  | drew t1 htx
  | sendFailed htx
  | sent htx
  | cleanup htx =>
    simp [Action.isTx, htx, NodeState.roundLeft, TxTask.work] <;> omega
  | insert htx hfresh =>
    simp [Action.isTx, htx, NodeState.roundLeft, TxTask.work,
      Table.contents_insert_fresh _ hfresh]
    omega
  | overwrite htx hold =>
    simp [Action.isTx, htx, NodeState.roundLeft, TxTask.work, Table.contents_insert,
      card_erase hold]
  | @sweep now expired htx hperm =>
    have hsplit := congrArg Multiset.card (Table.retain_add_evicted (keepPending now) s.pending)
    rw [Multiset.card_add, Multiset.coe_card, ← hperm.length_eq] at hsplit
    cases expired <;> simp [Action.isTx, htx, NodeState.roundLeft, TxTask.work] at hsplit ⊢ <;>
      omega
  | @expire t rest sys htx =>
    cases rest <;> simp [Action.isTx, htx, NodeState.roundLeft, TxTask.work]
  | mismatch hrx hsome
  | «match» hrx hsome => simp [Action.isTx, NodeState.roundLeft, card_erase hsome]
  | _ => simp [Action.isTx, NodeState.roundLeft]

private theorem rx_moves {ts : List NodeTurn} {s : NodeState} (hrun : (node parse cfg).Run {} ts s)
    (hbusy : receptions.settled s = false) :
    ∃ a : Action, a.isRx = true ∧ ((node parse cfg).step s a).isSome = true := by
  cases hrx : s.rx with
  | listening => simp [receptions, hrx] at hbusy
  | request => exact ⟨.rxReadT2 none 0, rfl, by simp [node, nodeStep, hrx]⟩
  | requestStamped => exact ⟨.rxReadT3 none 0, rfl, by simp [node, nodeStep, hrx]⟩
  | replying => exact ⟨.rxReply true, rfl, by simp [node, nodeStep, hrx]⟩
  | replied => exact ⟨.rxLatency 0, rfl, by simp [node, nodeStep, hrx]⟩
  | response => exact ⟨.rxReadT4 none 0, rfl, by simp [node, nodeStep, hrx]⟩
  | responseStamped src resp t4 =>
    refine ⟨.rxTake, rfl, ?_⟩
    simp only [node, nodeStep, hrx]
    obtain ⟨outcome, rest⟩ := takePending s.pending resp
    cases outcome <;> rfl
  | matched => exact ⟨.rxRuntime, rfl, by simp [node, nodeStep, hrx]⟩
  | storing e writes =>
    cases writes with
    | nil => exact absurd hrx ((run_unfinished hrun).1 e)
    | cons w rest => exact ⟨.rxStore, rfl, by simp [node, nodeStep, hrx]⟩

private theorem tx_moves {ts : List NodeTurn} {s : NodeState} (hrun : (node parse cfg).Run {} ts s)
    (hbusy : (rounds parse cfg).settled s = false) :
    ∃ a : Action, a.isTx = true ∧ ((node parse cfg).step s a).isSome = true := by
  cases htx : s.tx with
  | waiting => simp [rounds, htx] at hbusy
  | probing todo =>
    cases todo with
    | nil => exact ⟨.txCleanup, rfl, by simp [node, nodeStep, htx]⟩
    | cons target todo => exact ⟨.txDraw none, rfl, by simp [node, nodeStep, htx]⟩
  | sending => exact ⟨.txSend true, rfl, by simp [node, nodeStep, htx]⟩
  | sent => exact ⟨.txInsert, rfl, by simp [node, nodeStep, htx]⟩
  | sweeping now =>
    exact ⟨.txSweep (Table.evicted (keepPending now) s.pending), rfl, by simp [node, nodeStep, htx]⟩
  | expiring expired =>
    cases expired with
    | nil => exact absurd htx (run_unfinished hrun).2
    | cons t rest => exact ⟨.txExpire 0, rfl, by simp [node, nodeStep, htx]⟩

def receptionsVariant (parse : String → UInt16 → Option SocketAddr) (cfg : Config) :
    Variant receptions (node parse cfg) {}
      fun (m : Shared) a => ((Part.node : PartOf cfg).read? a).all m.answers where
  left s := s.rx.work
  begins hstep hown hsettled :=
    (NodeStep.of_step hstep).rx_work.2.1 hown (of_decide_eq_true hsettled)
  spends hstep hown hbusy :=
    (NodeStep.of_step hstep).rx_work.2.2 hown (of_decide_eq_false hbusy)
  keeps hstep hown := Nat.le_of_eq (congrArg RxTask.work ((NodeStep.of_step hstep).rx_work.1 hown))
  moves hrun hbusy _ := by
    obtain ⟨a, hown, hsome⟩ := rx_moves hrun hbusy
    exact ⟨a, hown, rfl, hsome⟩

def roundsVariant (parse : String → UInt16 → Option SocketAddr) (cfg : Config) :
    Variant (rounds parse cfg) (node parse cfg) {}
      fun (m : Shared) a => ((Part.node : PartOf cfg).read? a).all m.answers where
  left := NodeState.roundLeft
  begins hstep hown hsettled :=
    (NodeStep.of_step hstep).tx_work.2.1 hown (of_decide_eq_true hsettled)
  spends hstep hown hbusy :=
    (NodeStep.of_step hstep).tx_work.2.2 hown (of_decide_eq_false hbusy)
  keeps hstep hown := (NodeStep.of_step hstep).tx_work.1 hown
  moves hrun hbusy _ := by
    obtain ⟨a, hown, hsome⟩ := tx_moves hrun hbusy
    exact ⟨a, hown, rfl, hsome⟩

/-- What a part of a node does. -/
def Part.activities (parse : String → UInt16 → Option SocketAddr) (cfg : Config) :
    (i : PartOf cfg) → List (Activity i.State i.Action)
  | .node => [receptions, rounds parse cfg]
  | .fusion => [iterations cfg]
  | .poller k => [polls cfg (cfg.ntpSources.get k)]
  | .handler _ => [responses cfg]

private theorem exists_variant {i : PartOf cfg} {c : Activity i.State i.Action}
    (hc : c ∈ i.activities parse cfg) :
    Nonempty (Variant c (i.machine parse cfg) (i.init cfg)
      fun (m : Shared) a => (i.read? a).all m.answers) := by
  cases i with
  | node =>
    rcases List.mem_pair.mp hc with rfl | rfl
    · exact ⟨receptionsVariant parse cfg⟩
    · exact ⟨roundsVariant parse cfg⟩
  | fusion =>
    obtain rfl := List.mem_singleton.mp hc
    exact ⟨iterationsVariant cfg⟩
  | poller k =>
    obtain rfl := List.mem_singleton.mp hc
    exact ⟨pollsVariant cfg k⟩
  | handler k =>
    obtain rfl := List.mem_singleton.mp hc
    exact ⟨responsesVariant cfg⟩

section Nodes

variable {N : Type} [DecidableEq N] {cfgs : N → Config} {m : Shared} {ts : List (NodesTurn cfgs)}
  {s : NodesState cfgs}

/-- The activity of a part, among the turns of all nodes. -/
def amongNodes (i : PartIn cfgs) (c : Activity i.2.State i.2.Action) :
    Activity (NodesState cfgs) (Move (fun i : PartIn cfgs => i.2.Action) SharedDrift) :=
  c.member Shared SharedDrift i

end Nodes

private theorem unpinged_middle : ((soloNode pollConfig).toMachine.exec (Nodes.init _ emptyShared)
    (unpingedMoves.take 3)).isSome = true := by
  decide +kernel

end Zeitpeer
