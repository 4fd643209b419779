import Zeitpeer.Net.Site

/-!
# The windows of the components

Every component derives the window of its writes, or of its reads, from the configured seconds by
itself. The pollers and the metrics handler raise the seconds to at least one and the others do
not, and where a window is zero a write trims nothing. All of them multiply in 64 bits.
-/

namespace Zeitpeer

open Framework Machine Ensemble

variable {parse : String → UInt16 → Option SocketAddr} {cfg : Config}

/-- The window that a part computes. -/
def Part.windowNs (cfg : Config) : PartOf cfg → UInt64
  | .node => cfg.windowNs
  | .fusion => cfg.windowNs
  | .poller _ => pollerWindowNs cfg
  | .handler _ => metricsWindowNs cfg

/-- The writes of a response that is being stored have the node's window. -/
def StoresWindow (cfg : Config) : RxTask → Prop
  | .storing _ writes => ∀ w ∈ writes, w.windowNs = cfg.windowNs
  | _ => True

private theorem sampleWrites_window {e : Exchange} {jitter : F64} :
    ∀ w ∈ sampleWrites cfg e jitter, w.windowNs = cfg.windowNs := by
  simp [sampleWrites]

private theorem NodeStep.window {s s' : NodeState} {a : Action} {es : List Event}
    (hstep : NodeStep parse cfg s a s' es) (h : StoresWindow cfg s.rx) :
    StoresWindow cfg s'.rx ∧ ∀ w c, .tsAdd w c ∈ es → w.windowNs = cfg.windowNs := by
  cases hstep with
  | expire sys htx => exact ⟨h, by simp [timeoutWrite]⟩
  | latency sys hrx => exact ⟨trivial, by simp [latencyWrite]⟩
  | runtime hrx => exact ⟨sampleWrites_window, by simp⟩
  | @store e w rest hrx =>
    rw [hrx] at h
    constructor
    · cases rest with
      | nil => trivial
      | cons w' rest => exact fun x hx => h x (List.mem_cons_of_mem _ hx)
    · intro x c hx
      obtain ⟨rfl, _⟩ := Event.tsAdd.inj (List.mem_singleton.mp hx)
      exact h x List.mem_cons_self
  | _ => first
    | exact ⟨h, by simp⟩
    | exact ⟨trivial, by simp⟩

theorem run_window {ts : List NodeTurn} {s : NodeState} (hrun : (node parse cfg).Run {} ts s) :
    StoresWindow cfg s.rx ∧ ∀ w c, .tsAdd w c ∈ events ts → w.windowNs = cfg.windowNs := by
  have hemits : StoresWindow cfg s.rx ∧
      ∀ x : TsAdd × Cause, .tsAdd x.1 x.2 ∈ events ts → x.1.windowNs = cfg.windowNs := by
    refine hrun.emits (J := fun s => StoresWindow cfg s.rx) ?_ ?_
    · trivial
    · intro ts s a s' es _ hbefore hstep
      obtain ⟨hafter, hlast⟩ := (NodeStep.of_step hstep).window hbefore
      exact ⟨hafter, fun x => hlast x.1 x.2⟩
  exact ⟨hemits.1, fun w c => hemits.2 (w, c)⟩

private theorem part_window {i : PartOf cfg} {ts : List (Turn i.State i.Action i.Event)}
    {s : i.State}
    (hrun : (i.machine parse cfg).Run (i.init cfg) ts s) {e : i.Event} (he : e ∈ events ts)
    {w : TsAdd} (hw : i.write? e = some (.tsAdd w)) : w.windowNs = i.windowNs cfg := by
  cases i with
  | node =>
    cases e with
    | tsAdd w c =>
      obtain rfl := StoreWrite.tsAdd.inj (Option.some.inj hw)
      exact (run_window hrun).2 w c he
    | _ => contradiction
  | fusion =>
    cases e with
    | tsAdd w =>
      obtain rfl := StoreWrite.tsAdd.inj (Option.some.inj hw)
      cases (run_publishes hrun).2 w he <;> rfl
    | _ => simp [Part.write?] at hw
  | poller k =>
    obtain ⟨hus, hevents⟩ := run_own hrun
    rw [← hevents] at he
    cases e with
    | tsAdd w =>
      obtain rfl := StoreWrite.tsAdd.inj (Option.some.inj hw)
      cases (run_stores hus).2 w he
      rfl
    | _ => simp [Part.write?] at hw
  | handler k => contradiction

/-- The first stamp that a read asks for. -/
def Part.since? {n : Nat} : (i : Part n) → i.Action → Option UInt64
  | .fusion, .recent _ since _ _ => some since
  | .handler _, .recent _ since _ _ => some since
  | _, _ => none

/-- One window before a reading of the clock. -/
def LooksBack (windowNs since : UInt64) : Prop := ∃ now, since = saturatingSub now windowNs

def FusionTask.LooksBack (cfg : Config) : FusionTask → Prop
  | .collecting since _ _ => Zeitpeer.LooksBack cfg.windowNs since
  | .delays since _ _ _ _ => Zeitpeer.LooksBack cfg.windowNs since
  | .jitters since _ _ _ _ _ => Zeitpeer.LooksBack cfg.windowNs since
  | _ => True

private theorem looksBack_afterEffects (rest : List Effect) :
    (afterEffects rest).LooksBack cfg := by
  cases rest <;> trivial

private theorem FusionStep.looksBack {s s' : FusionState} {a : FusionAction} {es : List FusionEvent}
    (hstep : FusionStep cfg s a s' es) (h : s.task.LooksBack cfg) : s'.task.LooksBack cfg := by
  cases hstep with
  | skip => exact h
  | tick now => exact ⟨now, rfl⟩
  | sparse htask
  | enough htask
  | delays entries htask
  | jitters entries htask =>
    rw [htask] at h
    exact h
  | tsAdd
  | slew
  | hmSet
  | phcAbsent => exact looksBack_afterEffects _
  | _ => trivial

theorem run_looksBack {ts : List FusionTurn} {s : FusionState}
    (hrun : (fusion cfg).Run (.init cfg) ts s) : s.task.LooksBack cfg := by
  induction hrun with
  | start => trivial
  | turn _ hstep ih => exact (FusionStep.of_step hstep).looksBack ih

private theorem FusionTask.LooksBack.of_reads {task : FusionTask} {key : SeriesKey} {since : UInt64}
    (h : task.LooksBack cfg) (hreads : task.reads = some (key, since)) :
    Zeitpeer.LooksBack cfg.windowNs since := by
  cases task with
  | collecting since' todo samples =>
    cases todo with
    | nil => contradiction
    | cons src todo =>
      obtain ⟨_, rfl⟩ := Prod.mk.inj (Option.some.inj hreads)
      exact h
  | delays
  | jitters =>
    obtain ⟨_, rfl⟩ := Prod.mk.inj (Option.some.inj hreads)
    exact h
  | _ => contradiction

def HandlerTask.LooksBack (cfg : Config) : HandlerTask → Prop
  | .metrics since _ _ => Zeitpeer.LooksBack (metricsWindowNs cfg) since
  | _ => True

private theorem HandlerStep.looksBack {task task' : HandlerTask} {a : HandlerAction}
    {es : List HandlerEvent} (hstep : HandlerStep cfg task a task' es) (h : task.LooksBack cfg) :
    task'.LooksBack cfg := by
  cases hstep with
  | metrics now => exact ⟨now, rfl⟩
  | recent
  | getAll
  | last => exact h
  | _ => trivial

private theorem handler_looksBack {ts : List (Turn HandlerTask HandlerAction HandlerEvent)}
    {task : HandlerTask} (hrun : (handler cfg).Run .idle ts task) : task.LooksBack cfg := by
  induction hrun with
  | start => trivial
  | turn _ hstep ih => exact (HandlerStep.of_step hstep).looksBack ih

private theorem part_since {i : PartOf cfg} {ts : List (Turn i.State i.Action i.Event)}
    {s s' : i.State}
    {a : i.Action} {es : List i.Event} (hrun : (i.machine parse cfg).Run (i.init cfg) ts s)
    (hstep : (i.machine parse cfg).step s a = some (s', es)) {since : UInt64}
    (hsince : i.since? a = some since) : LooksBack (i.windowNs cfg) since := by
  cases i with
  | node => contradiction
  | poller k => contradiction
  | fusion =>
    cases a with
    | recent key since' limit reply =>
      obtain rfl := Option.some.inj hsince
      exact (run_looksBack hrun).of_reads (fusionStep_recent hstep).1
    | _ => contradiction
  | handler k =>
    cases a with
    | recent key since' limit reply =>
      obtain rfl := Option.some.inj hsince
      have hback := handler_looksBack hrun
      cases HandlerStep.of_step hstep
      exact hback
    | _ => contradiction

private theorem writes_length {i : PartOf cfg} {s s' : i.State} {a : i.Action} {es : List i.Event}
    (hstep : (i.machine parse cfg).step s a = some (s', es)) : (i.writes es).length ≤ 1 := by
  cases i with
  | node =>
    cases NodeStep.of_step hstep
    all_goals first
      | exact Nat.zero_le 1
      | exact Nat.le_refl 1
  | fusion =>
    cases FusionStep.of_step hstep
    all_goals first
      | exact Nat.zero_le 1
      | exact Nat.le_refl 1
  | handler k =>
    cases HandlerStep.of_step hstep
    all_goals exact Nat.zero_le 1
  | poller k =>
    obtain ⟨b, p, rfl, _, hlocal, rfl⟩ | ⟨key, reply, rfl, _, _, rfl, rfl⟩ := comparing_cases hstep
    · cases PollerStep.of_step hlocal
      all_goals first
        | exact Nat.zero_le 1
        | exact Nat.le_refl 1
    · exact Nat.zero_le 1

section Nodes

variable {N : Type} [DecidableEq N] {cfgs : N → Config} {x : N}

private theorem medium_of_write {s s' : NodesState cfgs}
    {a : Move (fun i : PartIn cfgs => i.2.Action)
    SharedDrift} {es : List (Sigma fun i : PartIn cfgs => i.2.Event)} {i : PartOf (cfgs x)}
    {e : i.Event} {w : StoreWrite}
    (hstep : (nodes parse cfgs).toMachine.step s a = some (s', es)) (he : ⟨⟨x, i⟩, e⟩ ∈ es)
    (hw : i.write? e = some w) : s'.medium = s.medium.write w := by
  cases a with
  | drift d =>
    obtain ⟨_, _, _, rfl⟩ := step_drift hstep
    exact absurd he List.not_mem_nil
  | member j a =>
    obtain ⟨n, fs, _, hlocal, rfl, rfl⟩ := step_member hstep
    obtain ⟨e', he', heq⟩ := List.mem_map.mp he
    obtain ⟨rfl, heq⟩ := Sigma.mk.inj heq
    obtain rfl := eq_of_heq heq
    have hmem : w ∈ i.writes fs := List.mem_filterMap.mpr ⟨e', he', hw⟩
    have hshort : (i.writes fs).length ≤ 1 := writes_length hlocal
    have hwrites : i.writes fs = [w] := by
      obtain ⟨w', hone⟩ := List.length_eq_one_iff.mp
        (Nat.le_antisymm hshort (List.length_pos_of_mem hmem))
      rw [hone] at hmem ⊢
      rw [List.mem_singleton.mp hmem]
    change (i.writes fs).foldl Shared.write s.medium = _
    rw [hwrites]
    rfl

/-- A turn of a node keeps to the windows of its parts, and after a write nothing in the series
is as old as `widthNs`. -/
structure Windowed (cfgs : N → Config) (x : N) (widthNs : Nat) (t : NodesTurn cfgs) : Prop where
  reads : ∀ (i : PartOf (cfgs x)) a since, t.action = .member ⟨x, i⟩ a →
    i.since? a = some since → LooksBack (i.windowNs (cfgs x)) since
  writes : ∀ (i : PartOf (cfgs x)) e w, ⟨⟨x, i⟩, e⟩ ∈ t.emitted →
    i.write? e = some (.tsAdd w) → w.windowNs = i.windowNs (cfgs x) ∧
      ∀ old ∈ t.after.medium.series w.key, ∀ stamp : UInt64, old.score = roundToF64 stamp.toNat →
        w.tsNs.toNat < stamp.toNat + widthNs

/-- The configured window, which is at least a second. -/
def configuredNs (cfg : Config) : Nat := max cfg.sampling.windowSec.toNat 1 * 10 ^ 9

/-- All parts of a node compute the configured window, and keep to it in every run. -/
structure OneWindow (parse : String → UInt16 → Option SocketAddr) (cfgs : N → Config) (x : N) :
    Prop where
  windows : ∀ i : PartOf (cfgs x), (i.windowNs (cfgs x)).toNat = configuredNs (cfgs x)
  runs : ∀ (m : Shared) (ts : List (NodesTurn cfgs)) (s : NodesState cfgs),
    (nodes parse cfgs).toMachine.Run (Nodes.init cfgs m) ts s →
      ∀ t ∈ ts, Windowed cfgs x (configuredNs (cfgs x)) t

/-- Every run keeps to the windows that are computed, whatever they are. -/
theorem run_windowed {m : Shared} {ts : List (NodesTurn cfgs)} {s : NodesState cfgs}
    {widthNs : Nat} (hpos : 0 < widthNs)
    (hwidth : ∀ i : PartOf (cfgs x), (i.windowNs (cfgs x)).toNat = widthNs)
    (hrun : (nodes parse cfgs).toMachine.Run (Nodes.init cfgs m) ts s) :
    ∀ t ∈ ts, Windowed cfgs x widthNs t := by
  rintro ⟨before, a, es, after⟩ ht
  obtain ⟨us, vs, rfl⟩ := List.append_of_mem ht
  obtain ⟨hbefore, hstep, hafter⟩ := hrun.middle
  constructor
  · intro i b since haction hsince
    obtain rfl : a = .member ⟨x, i⟩ b := haction
    obtain ⟨n, fs, _, hlocal, _, _⟩ := step_member hstep
    exact part_since (run_view hbefore ⟨x, i⟩) hlocal hsince
  · intro i e w he hw
    have hmem : ⟨⟨x, i⟩, e⟩ ∈ events (us ++ [⟨before, a, es, after⟩]) := mem_events_last he
    have hwindow : w.windowNs = i.windowNs (cfgs x) :=
      part_window (run_view hafter ⟨x, i⟩) ((mem_events_view hafter).mpr hmem) hw
    refine ⟨hwindow, ?_⟩
    intro old hold stamp hstamp
    have hmedium : after.medium = before.medium.write (.tsAdd w) := medium_of_write hstep he hw
    change old ∈ after.medium.series w.key at hold
    rw [hmedium] at hold
    rw [← hwidth i, ← hwindow]
    refine within_of_mem_tsAdd ?_ hold hstamp
    rw [UInt64.lt_iff_toNat_lt, hwindow, hwidth i]
    exact hpos

private theorem toNat_windowNs {windowSec : UInt64} (h : windowSec.toNat * 10 ^ 9 < 2 ^ 64) :
    (windowSec * 1000000000).toNat = windowSec.toNat * 10 ^ 9 := by
  rw [UInt64.toNat_mul]
  exact Nat.mod_eq_of_lt h

/-- The components of a node have the configured window in common exactly if at least a second
is configured and its nanoseconds fit into 64 bits. -/
theorem one_window_iff (parse : String → UInt16 → Option SocketAddr) (cfgs : N → Config) (x : N) :
    OneWindow parse cfgs x ↔ 1 ≤ (cfgs x).sampling.windowSec.toNat ∧
      (cfgs x).sampling.windowSec.toNat * 10 ^ 9 < 2 ^ 64 := by
  constructor
  · intro h
    have hnode : ((cfgs x).sampling.windowSec * 1000000000).toNat = configuredNs (cfgs x) :=
      h.windows .node
    have hfits := ((cfgs x).sampling.windowSec * 1000000000).toNat_lt
    rw [hnode, configuredNs] at hfits
    have hpos : 1 ≤ (cfgs x).sampling.windowSec.toNat := by
      by_contra hzero
      have hsec : (cfgs x).sampling.windowSec = 0 := UInt64.toNat_inj.mp (by simpa using hzero)
      rw [configuredNs, hsec] at hnode
      exact absurd hnode (by decide)
    rw [Nat.max_eq_left hpos] at hfits
    exact ⟨hpos, hfits⟩
  · rintro ⟨hpos, hfits⟩
    have hsame : max (cfgs x).sampling.windowSec 1 = (cfgs x).sampling.windowSec := by
      change (if (cfgs x).sampling.windowSec ≤ 1 then 1 else (cfgs x).sampling.windowSec) = _
      split
      · rename_i hle
        exact UInt64.le_antisymm hpos hle
      · rfl
    have hwidth : ∀ i : PartOf (cfgs x),
        (i.windowNs (cfgs x)).toNat = configuredNs (cfgs x) := by
      intro i
      rw [configuredNs, Nat.max_eq_left hpos, ← toNat_windowNs hfits]
      cases i with
      | node => rfl
      | fusion => rfl
      | poller k => rw [Part.windowNs, pollerWindowNs, hsame]
      | handler k => rw [Part.windowNs, metricsWindowNs, hsame]
    refine ⟨hwidth, fun m ts s hrun => run_windowed ?_ hwidth hrun⟩
    rw [configuredNs, Nat.max_eq_left hpos]
    omega

end Nodes

/-- A node whose window is given in seconds. -/
def windowConfig (windowSec : UInt64) : Config :=
  { nodeId := 1
    phcDevice := none
    sampling := { intervalMs := 1000, windowSec := windowSec }
    filter := { lambda := 1 / 4, trimRatio := 1 / 4, bestQuantile := 1, minSamplesPerPeer := 1 } }

/-- With no seconds a write of the node leaves an entry of the beginning of time, and one second
above 2^64 nanoseconds the window is less than a third of a second. -/
theorem not_one_window :
    ¬ OneWindow (fun _ _ => none) (fun _ : Unit => windowConfig 0) () ∧
      ⟨0, 1⟩ ∈ Store.tsAdd (fun _ => [⟨0, 1⟩])
        (timeoutWrite (windowConfig 0) { peerId := 2, t1Ns := 0, sentAt := 0 } 2000000000)
          (.peer 2 .timeouts) ∧
      ¬ OneWindow (fun _ _ => none) (fun _ : Unit => windowConfig 18446744074) () := by
  refine ⟨?_, by decide, ?_⟩
  · intro h
    exact absurd (h.windows .node) (by decide)
  · intro h
    exact absurd (h.windows .node) (by decide)

end Zeitpeer
