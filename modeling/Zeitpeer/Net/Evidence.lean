import Zeitpeer.Net.Daemon
import Zeitpeer.Net.Iteration

/-!
# The evidence behind a clock command

A command ends an iteration of its own, and that iteration has found enough readings of one
source inside its window. Nothing asks whether the readings are new: what one iteration has
used stays in the window for the next.
-/

namespace Zeitpeer

open Framework Machine Ensemble

variable {cfg : Config}

def FusionEvent.commands : FusionEvent → Bool
  | .slewed _ _ _ => true
  | _ => false

def Effect.commands : Effect → Bool
  | .slew _ _ => true
  | _ => false

/-- Neither a tick nor a command. -/
def FusionTurn.Quiet (t : FusionTurn) : Prop :=
  (∀ now, t.action ≠ .tick now) ∧ ∀ e ∈ t.emitted, e.commands = false

/-- A reply with enough offsets of a source in the window. -/
def FusionTurn.FindsEnough (cfg : Config) (since : UInt64) (t : FusionTurn) : Prop :=
  ∃ src ∈ sources cfg, ∃ entries,
    t.action = .recent src.offsetKey since (readLimit cfg) (some entries) ∧
      readLimit cfg ≤ entries.length

/-- The last tick of a history, with what has followed it: no command, and enough readings of
some source if they are needed. -/
def Seen (cfg : Config) (ts : List FusionTurn) (since : UInt64) (needed : Prop) : Prop :=
  ∃ earlier t inside now, ts = earlier ++ t :: inside ∧ t.action = .tick now ∧
    since = saturatingSub now cfg.windowNs ∧ (∀ v ∈ inside, v.Quiet) ∧
    (needed → ∃ r ∈ inside, r.FindsEnough cfg since)

/-- What a task has behind it in the iteration it is in. -/
def Behind (cfg : Config) (ts : List FusionTurn) : FusionTask → Prop
  | .collecting since todo samples =>
    (∀ src ∈ todo, src ∈ sources cfg) ∧ Seen cfg ts since (samples ≠ [])
  | .delays since _ _ todo _ => (∀ src ∈ todo, src ∈ sources cfg) ∧ Seen cfg ts since True
  | .jitters since _ _ _ todo _ => (∀ src ∈ todo, src ∈ sources cfg) ∧ Seen cfg ts since True
  | .publishing effects => effects.countP Effect.commands ≤ 1 ∧
      (0 < effects.countP Effect.commands → ∃ since, Seen cfg ts since True)
  | _ => True

private theorem Seen.tick {ts : List FusionTurn} {t : FusionTurn} {now : UInt64}
    (h : t.action = .tick now) : Seen cfg (ts ++ [t]) (saturatingSub now cfg.windowNs) False :=
  ⟨ts, t, [], now, rfl, h, rfl, by simp, False.elim⟩

private theorem Seen.quiet_turn {ts : List FusionTurn} {t : FusionTurn} {since : UInt64}
    {needed : Prop}
    (h : Seen cfg ts since needed) (hquiet : t.Quiet) : Seen cfg (ts ++ [t]) since needed := by
  obtain ⟨earlier, tick, inside, now, rfl, haction, hsince, hinside, henough⟩ := h
  refine ⟨earlier, tick, inside ++ [t], now, by simp, haction, hsince, ?_, ?_⟩
  · rw [List.forall_mem_append, List.forall_mem_singleton]
    exact ⟨hinside, hquiet⟩
  · intro hneeded
    obtain ⟨r, hr, hfinds⟩ := henough hneeded
    exact ⟨r, List.mem_append_left _ hr, hfinds⟩

private theorem Seen.found {ts : List FusionTurn} {t : FusionTurn} {since : UInt64} {needed : Prop}
    (h : Seen cfg ts since needed) (hquiet : t.Quiet) (hfinds : t.FindsEnough cfg since) :
    Seen cfg (ts ++ [t]) since True := by
  obtain ⟨earlier, tick, inside, now, rfl, haction, hsince, hinside, _⟩ := h
  refine ⟨earlier, tick, inside ++ [t], now, by simp, haction, hsince, ?_, ?_⟩
  · rw [List.forall_mem_append, List.forall_mem_singleton]
    exact ⟨hinside, hquiet⟩
  · exact fun _ => ⟨t, List.mem_concat_self, hfinds⟩

private theorem Seen.mono {ts : List FusionTurn} {since : UInt64} {needed needed' : Prop}
    (h : Seen cfg ts since needed) (hless : needed' → needed) : Seen cfg ts since needed' := by
  obtain ⟨earlier, tick, inside, now, hts, haction, hsince, hinside, henough⟩ := h
  exact ⟨earlier, tick, inside, now, hts, haction, hsince, hinside, fun h => henough (hless h)⟩

private theorem driftEffects_commands (cfg : Config) (ts : UInt64) (smoothed : F64) (ring : Ring) :
    (driftEffects cfg ts smoothed ring).countP Effect.commands ≤ 1 := by
  unfold driftEffects
  split
  · split <;> simp [fusedAdd, Effect.commands]
  · simp

private theorem reportEffects_commands (cfg : Config) (ts : UInt64) (f : Fused)
    (samples : List PeerSample) :
    (reportEffects cfg ts f samples).countP Effect.commands = 0 := by
  have hself : (if cfg.peers.any fun p => p.id = cfg.nodeId then
      [Effect.hmSet { key := .peerSelf cfg.nodeId, fields := [("last_ewma_ns", f.smoothed)] }]
      else []).countP Effect.commands = 0 := by
    split <;> rfl
  have hsamples : (samples.map (sampleSummary cfg)).countP Effect.commands = 0 := by
    rw [List.countP_eq_zero]
    intro e he
    obtain ⟨s, _, rfl⟩ := List.mem_map.mp he
    simp [sampleSummary, Effect.commands]
  simp only [reportEffects, List.countP_cons, List.countP_append, hself, hsamples]
  rfl

private theorem publishEffects_commands (cfg : Config) (ts : UInt64) (f : Fused) (ring : Ring)
    (samples : List PeerSample) :
    (publishEffects cfg ts f ring samples).countP Effect.commands ≤ 1 := by
  have hdrift := driftEffects_commands cfg ts f.smoothed ring
  rw [publishEffects, List.countP_append, reportEffects_commands, fusedEffects,
    List.countP_append]
  simpa [fusedAdd, Effect.commands] using hdrift

private theorem behind_afterEffects {ts : List FusionTurn} {t : FusionTurn} {e : Effect}
    {rest : List Effect} (hquiet : t.Quiet) (hother : e.commands = false)
    (h : Behind cfg ts (.publishing (e :: rest))) : Behind cfg (ts ++ [t]) (afterEffects rest) := by
  obtain ⟨honce, hseen⟩ := h
  rw [List.countP_cons_of_neg (by simp [hother])] at honce hseen
  cases rest with
  | nil => trivial
  | cons e' rest =>
    refine ⟨honce, fun hpos => ?_⟩
    obtain ⟨since, hseen⟩ := hseen hpos
    exact ⟨since, hseen.quiet_turn hquiet⟩

private theorem Behind.slewed {ts ts' : List FusionTurn} {offset drift : F64}
    {rest : List Effect} (h : Behind cfg ts (.publishing (.slew offset drift :: rest))) :
    Behind cfg ts' (afterEffects rest) := by
  have hnone : rest.countP Effect.commands = 0 := by
    have honce := h.1
    rw [List.countP_cons_of_pos rfl] at honce
    omega
  cases rest with
  | nil => trivial
  | cons e rest => exact ⟨by omega, fun hpos => absurd hnone (Nat.pos_iff_ne_zero.mp hpos)⟩

private theorem Behind.phcRead {ts : List FusionTurn} {t : FusionTurn} {stamp : UInt64}
    {smoothed : F64} {rest : List Effect} (offset : Int) (hquiet : t.Quiet)
    (h : Behind cfg ts (.publishing (.phcOffset stamp smoothed :: rest))) :
    Behind cfg (ts ++ [t]) (.publishing (phcEffects cfg stamp smoothed offset ++ rest)) := by
  have hcount : (phcEffects cfg stamp smoothed offset ++ rest).countP Effect.commands =
      (Effect.phcOffset stamp smoothed :: rest).countP Effect.commands := by
    simp [phcEffects, Effect.commands]
  refine ⟨hcount ▸ h.1, fun hpos => ?_⟩
  obtain ⟨since, hseen⟩ := h.2 (hcount ▸ hpos)
  exact ⟨since, hseen.quiet_turn hquiet⟩

private theorem FusionStep.behind {ts : List FusionTurn} {s s' : FusionState} {a : FusionAction}
    {es : List FusionEvent} (hstep : FusionStep cfg s a s' es) (h : Behind cfg ts s.task) :
    Behind cfg (ts ++ [⟨s, a, es, s'⟩]) s'.task := by
  cases hstep with
  | skip now hidle =>
    rw [hidle]
    trivial
  | tick now hidle hpeers =>
    exact ⟨fun src hsrc => hsrc, (Seen.tick rfl).mono fun hne => hne rfl⟩
  | failed
  | nothing
  | panic
  | phcFailed => trivial
  | sparse htask hfew =>
    rw [htask] at h
    obtain ⟨htodo, hseen⟩ := h
    exact ⟨fun src hsrc => htodo src (List.mem_cons_of_mem _ hsrc),
      hseen.quiet_turn (by simp [FusionTurn.Quiet])⟩
  | @enough since src todo samples entries htask hmany =>
    rw [htask] at h
    obtain ⟨htodo, hseen⟩ := h
    exact ⟨fun src hsrc => htodo src (List.mem_cons_of_mem _ hsrc),
      hseen.found (by simp [FusionTurn.Quiet])
        ⟨src, htodo src List.mem_cons_self, entries, rfl, hmany⟩⟩
  | delays entries htask =>
    rw [htask] at h
    exact ⟨h.1, h.2.quiet_turn (by simp [FusionTurn.Quiet])⟩
  | jitters entries htask =>
    rw [htask] at h
    exact ⟨h.1, (h.2.quiet_turn (by simp [FusionTurn.Quiet])).mono fun _ => trivial⟩
  | @fuse since samples ewma f stamp htask hfuse =>
    rw [htask] at h
    have hne : samples ≠ [] := by
      rcases fuseSamples_cases hfuse with ⟨_, hout, _⟩ | ⟨_, hne, _⟩
      · contradiction
      · exact hne
    exact ⟨publishEffects_commands _ _ _ _ _, fun _ => ⟨since,
      (h.2.quiet_turn (by simp [FusionTurn.Quiet, FusionEvent.commands])).mono fun _ => hne⟩⟩
  | tsAdd htask
  | hmSet htask =>
    rw [htask] at h
    exact behind_afterEffects (by simp [FusionTurn.Quiet, FusionEvent.commands]) rfl h
  | phcAbsent htask =>
    rw [htask] at h
    exact behind_afterEffects (by simp [FusionTurn.Quiet]) rfl h
  | slew htask =>
    rw [htask] at h
    exact h.slewed
  | phcRead htask =>
    rw [htask] at h
    exact h.phcRead _ (by simp [FusionTurn.Quiet])

theorem run_behind {ts : List FusionTurn} {s : FusionState}
    (hrun : (fusion cfg).Run (.init cfg) ts s) : Behind cfg ts s.task := by
  induction hrun with
  | start => trivial
  | turn _ hstep ih => exact (FusionStep.of_step hstep).behind ih

private theorem command_seen {before after : List FusionTurn} {u : FusionTurn} {s : FusionState}
    (hrun : (fusion cfg).Run (.init cfg) (before ++ u :: after) s) {e : FusionEvent}
    (he : e ∈ u.emitted) (hcommand : e.commands = true) :
    ∃ since, Seen cfg before since True := by
  obtain ⟨s₀, a, es, s₁⟩ := u
  obtain ⟨hbefore, hstep, _⟩ := hrun.middle
  have hbehind := run_behind hbefore
  simp only at hstep hbehind
  cases FusionStep.of_step hstep with
  | slew htask =>
    rw [htask] at hbehind
    refine hbehind.2 ?_
    rw [List.countP_cons_of_pos rfl]
    exact Nat.succ_pos _
  | fuse
  | tsAdd
  | hmSet =>
    obtain rfl := List.mem_singleton.mp he
    contradiction
  | _ => exact absurd he List.not_mem_nil

variable {parse : String → UInt16 → Option SocketAddr}

/-- The turn commands the clock. -/
def commandsClock (t : DaemonTurn cfg) : Bool :=
  t.emitted.any fun
    | ⟨.fusion, e⟩ => e.commands
    | _ => false

/-- The turn stores an offset reading, of a peer or a server. -/
def storesOffset (t : DaemonTurn cfg) : Bool :=
  (t.emitted.any fun e => ((Task.write? e.1 e.2).bind TsAdd.offset?).isSome) ||
    match t.action with
    | .drift (.write w) => w.offset?.isSome
    | _ => false

private theorem commandsClock_iff {t : DaemonTurn cfg} :
    commandsClock t = true ↔ ∃ e : FusionEvent, e.commands = true ∧ ⟨.fusion, e⟩ ∈ t.emitted := by
  rw [commandsClock, List.any_eq_true]
  constructor
  · rintro ⟨⟨i, e⟩, he, hcommand⟩
    cases i with
    | fusion => exact ⟨e, hcommand, he⟩
    | node
    | poller => contradiction
  · rintro ⟨e, hcommand, he⟩
    exact ⟨⟨.fusion, e⟩, he, hcommand⟩

/-- Since the last tick of the loop there was no command, and the loop has read a source while
the store held enough of its offsets in the window. -/
def Grounded (before : List (DaemonTurn cfg)) : Prop :=
  ∃ earlier t inside now, before = earlier ++ t :: inside ∧
    t.action = .member .fusion (.tick now) ∧
    (∀ v ∈ inside, commandsClock v = false ∧ ∀ now, v.action ≠ .member .fusion (.tick now)) ∧
    ∃ r ∈ inside, ∃ src ∈ sources cfg, ∃ entries,
      r.action = .member .fusion (.recent src.offsetKey (saturatingSub now cfg.windowNs)
        (readLimit cfg) (some entries)) ∧
      readLimit cfg ≤ (eligible (r.before.medium src.offsetKey)
        (saturatingSub now cfg.windowNs)).length

private theorem Grounded.of_seen {store : Store} {before : List (DaemonTurn cfg)}
    {s : DaemonState cfg}
    (hrun : (daemon parse cfg).toMachine.Run (Daemon.init cfg store) before s) {since : UInt64}
    (hseen : Seen cfg (view Task.fusion before) since True) : Grounded before := by
  obtain ⟨earlier', t', inside', now, hbefore, haction, rfl, hquiet, hfinds⟩ := hseen
  obtain ⟨earlier, t, inside, rfl, _, ht, hinside⟩ := view_split hbefore
  have hstep : ∀ v ∈ inside, (daemon parse cfg).toMachine.step v.before v.action =
      some (v.after, v.emitted) :=
    fun v hv => hrun.step_of_mem (List.mem_append_right _ (List.mem_cons_of_mem _ hv))
  have hmem : ∀ v ∈ inside, ∀ v', turnOf Task.fusion v = some v' → v' ∈ inside' := by
    intro v hv v' hv'
    rw [← hinside]
    exact List.mem_filterMap.mpr ⟨v, hv, hv'⟩
  refine ⟨earlier, t, inside, now, rfl, ?_, ?_, ?_⟩
  · rw [(turnOf_action ht).1, haction]
  · intro v hv
    constructor
    · by_contra hcommands
      obtain ⟨f, hf, hemitted⟩ := commandsClock_iff.mp (Bool.not_eq_false _ ▸ hcommands)
      obtain ⟨v', hv', hemitted'⟩ := turnOf_of_emitted (hstep v hv) hemitted
      rw [(hquiet v' (hmem v hv v' hv')).2 f hemitted'] at hf
      contradiction
    · intro now' htick
      obtain ⟨b, a, es, b'⟩ := v
      subst htick
      exact (hquiet _ (hmem _ hv _ rfl)).1 now' rfl
  · obtain ⟨r', hr', src, hsrc, entries, hread, hmany⟩ := hfinds trivial
    obtain ⟨r, hr, hturn⟩ := List.mem_filterMap.mp (hinside ▸ hr')
    have hmove := (turnOf_action hturn).1
    rw [hread] at hmove
    have hrecent := read_answered (hmove ▸ hstep r hr)
    exact ⟨r, hr, src, hsrc, entries, hmove,
      (hrecent.limit_le_iff (readLimit_pos cfg)).mp hmany⟩

/-- Every command of a run ends an iteration of its own, with readings in the window. -/
theorem command_grounded {store : Store} {before after : List (DaemonTurn cfg)}
    {u : DaemonTurn cfg} {s : DaemonState cfg}
    (hrun : (daemon parse cfg).toMachine.Run (Daemon.init cfg store) (before ++ u :: after) s)
    (hcommand : commandsClock u = true) : Grounded before := by
  obtain ⟨e, hslewed, he⟩ := commandsClock_iff.mp hcommand
  obtain ⟨hbefore, hstep, _⟩ := hrun.middle
  obtain ⟨u', hu', he'⟩ := turnOf_of_emitted hstep he
  have hview := run_view hrun .fusion
  have hsplit : view .fusion (before ++ u :: after) =
      view .fusion before ++ u' :: view .fusion after := by
    rw [view_append]
    congr 1
    exact List.filterMap_cons_some hu'
  rw [hsplit] at hview
  obtain ⟨since, hseen⟩ := command_seen hview he' hslewed
  exact .of_seen hbefore hseen

/-- A node in control mode with one NTP server. -/
def controlConfig : Config :=
  { trioConfig with
    mode := { controlEnable := true }
    ntpSources := [{ id := 11, host := "a" }] }

/-- One iteration that finds the reading of `polledStore`, with some writes before the hardware
clock and the summaries after it. -/
def repeatIteration (now : UInt64) (writes : Nat) : List FusionAction :=
  [.tick now, .recent (.ntp 11 .offset) (now - 30000000000) 1 (some [⟨980000000000, 3⟩]),
    .recent (.ntp 11 .delay) (now - 30000000000) 1 (some []),
    .recent (.ntp 11 .jitter) (now - 30000000000) 1 (some []), .fuse now] ++
    List.replicate writes .publish ++ [.phcOffset .unreadable .unreadable] ++
    List.replicate 3 .publish

def repeatRun : List (Move (Task.Action (n := 1)) StoreDrift) :=
  (repeatIteration 1000000000000 3 ++ repeatIteration 1001000000000 3 ++
    repeatIteration 1002000000000 5 ++ repeatIteration 1003000000000 5).map
      fun a : FusionAction => .member .fusion a

def repeatTurns : List (DaemonTurn controlConfig) :=
  (daemon (fun _ _ => none) controlConfig).toMachine.turnsOf
    (Daemon.init controlConfig polledStore) repeatRun

private theorem repeatRun_runs :
    ∃ s, (daemon (fun _ _ => none) controlConfig).toMachine.Run
      (Daemon.init controlConfig polledStore) repeatTurns s := by
  have hexec : ((daemon (fun _ _ => none) controlConfig).toMachine.exec
      (Daemon.init controlConfig polledStore) repeatRun).isSome = true := by
    decide +kernel
  exact ⟨_, Run.of_actions hexec⟩

private theorem repeatTurns_commands : repeatTurns.countP commandsClock = 2 := by
  decide +kernel

theorem command_grounded_repeated :
    ∃ before u after, repeatTurns = before ++ u :: after ∧ commandsClock u = true ∧
      Grounded before := by
  have hpos : 0 < repeatTurns.countP commandsClock := by
    rw [repeatTurns_commands]
    decide
  obtain ⟨u, hu, hcommand⟩ := List.countP_pos_iff.mp hpos
  obtain ⟨before, after, hsplit⟩ := List.append_of_mem hu
  obtain ⟨s, hrun⟩ := repeatRun_runs
  rw [hsplit] at hrun
  exact ⟨before, u, after, hsplit, hcommand, command_grounded hrun hcommand⟩

/-- Two commands of one run, with no offset stored by anybody from its start to its end. -/
theorem command_repeated :
    controls controlConfig = true ∧
      (∃ s, (daemon (fun _ _ => none) controlConfig).toMachine.Run
        (Daemon.init controlConfig polledStore) repeatTurns s) ∧
      repeatTurns.countP commandsClock = 2 ∧ ∀ t ∈ repeatTurns, storesOffset t = false := by
  have hquiet : repeatTurns.all (fun t => !storesOffset t) = true := by
    decide +kernel
  refine ⟨rfl, repeatRun_runs, repeatTurns_commands, ?_⟩
  intro t ht
  simpa using List.all_eq_true.mp hquiet t ht

end Zeitpeer
