import Zeitpeer.Framework.Ghost
import Zeitpeer.Net.Atomicity
import Zeitpeer.Net.Iteration
import Zeitpeer.Net.Leftovers

/-!
# What a healthy answer says

The handler compares a reading of the system clock with the highest stamp of the smoothed offsets,
which is a reading that an iteration has taken. A history variable keeps the real time and the
moments at which smoothed offsets were written. A healthy answer has a recent write behind it as
long as the readings keep up with real time, and with any other readings it can be without one.
-/

namespace Zeitpeer

open Framework Machine Ensemble

variable {N : Type} {cfgs : N → Config}

/-- A write of a smoothed offset, with the moment of it. -/
structure EwmaWrite where
  time : Nat
  stamp : UInt64
  deriving DecidableEq, Repr

/-- Real time in nanoseconds, and the writes of smoothed offsets so far. -/
structure EwmaLog where
  now : Nat := 0
  written : List EwmaWrite := []

/-- The stamp under which an iteration writes a smoothed offset. -/
def ewmaStamp (e : NodesEvent cfgs) : Option UInt64 :=
  match e with
  | ⟨⟨_, .fusion⟩, .tsAdd w⟩ => if w.key = .fused .ewma then some w.tsNs else none
  | _ => none

private theorem ewmaStamp_eq_some {e : NodesEvent cfgs} {stamp : UInt64}
    (hstamp : ewmaStamp e = some stamp) :
    ∃ x w, e = ⟨⟨x, .fusion⟩, FusionEvent.tsAdd w⟩ ∧ w.key = .fused .ewma ∧ w.tsNs = stamp := by
  obtain ⟨⟨x, i⟩, e⟩ := e
  cases i with
  | fusion =>
    cases e with
    | tsAdd w =>
      obtain ⟨hkey, hsome⟩ := Option.ite_none_right_eq_some.mp hstamp
      exact ⟨x, w, rfl, hkey, Option.some.inj hsome⟩
    | _ => contradiction
  | _ => contradiction

def EwmaLog.after (g : EwmaLog) (elapsed : Nat) (es : List (NodesEvent cfgs)) : EwmaLog where
  now := g.now + elapsed
  written := g.written ++ (es.filterMap ewmaStamp).map (EwmaWrite.mk (g.now + elapsed))

@[simp] theorem EwmaLog.after_zero (g : EwmaLog) {es : List (NodesEvent cfgs)}
    (hquiet : es.filterMap ewmaStamp = []) : g.after 0 es = g := by
  simp [EwmaLog.after, hquiet]

def recordEwma (t : NodesTurn cfgs) (elapsed : Nat) (g : EwmaLog) : EwmaLog :=
  g.after elapsed t.emitted

variable [DecidableEq N] {parse : String → UInt16 → Option SocketAddr}

/-- The nodes in real time: every turn comes with the time that has passed before it. -/
def timedNodes (parse : String → UInt16 → Option SocketAddr) (cfgs : N → Config) :
    Machine (NodesState cfgs × EwmaLog) (Move (fun i : PartIn cfgs => i.2.Action) SharedDrift × Nat)
      (NodesEvent cfgs) :=
  (nodes parse cfgs).toMachine.annotate ⟨fun _ _ => true, recordEwma⟩

abbrev TimedNodesTurn (cfgs : N → Config) : Type :=
  Turn (NodesState cfgs × EwmaLog) (Move (fun i : PartIn cfgs => i.2.Action) SharedDrift × Nat)
    (NodesEvent cfgs)

/-- What the system clock may show: to an iteration, and to a request that is answered at a
moment. -/
structure Timing where
  fusion : Nat → UInt64 → Prop
  health : Nat → UInt64 → Prop

/-- A stamp as it is read back from the store. -/
def storedStamp (stamp : UInt64) : UInt64 := (Entry.reading ⟨roundToF64 stamp.toNat, 0⟩).1

/-- A reading that passes for less than five seconds old is at most five seconds old. -/
def Timing.KeepsUp (c : Timing) : Prop :=
  ∀ read stamp answered now, c.fusion read stamp → c.health answered now → read ≤ answered →
    saturatingSub now (storedStamp stamp) < 5000000000 → answered ≤ read + 5000000000

private theorem Timing.keepsUp_of_le {c : Timing}
    (hle : ∀ read stamp answered now, c.fusion read stamp → c.health answered now →
      read ≤ answered → answered - read ≤ now.toNat - (storedStamp stamp).toNat) : c.KeepsUp := by
  intro read stamp answered now hread hanswer hlater hfresh
  have hpassed := hle read stamp answered now hread hanswer hlater
  have hnat : (saturatingSub now (storedStamp stamp)).toNat < 5000000000 := hfresh
  rw [toNat_saturatingSub] at hnat
  omega

/-- The readings of a turn are those of the clock, and no other process adds smoothed offsets. -/
structure Within (c : Timing) (t : TimedNodesTurn cfgs) : Prop where
  tick : ∀ x now, t.action.1 = .member ⟨x, .fusion⟩ (FusionAction.tick now) →
    c.fusion t.after.2.now now
  fuse : ∀ x stamp, t.action.1 = .member ⟨x, .fusion⟩ (FusionAction.fuse stamp) →
    c.fusion t.after.2.now stamp
  answer : ∀ x k now key reply, t.before.1.members ⟨x, .handler k⟩ = HandlerTask.health now →
    t.action.1 = .member ⟨x, .handler k⟩ (HandlerAction.last key reply) →
      c.health t.after.2.now now
  drift : ∀ w : TsAdd, t.action.1 = .drift (.write (.tsAdd w)) → w.key ≠ .fused .ewma

/-- A healthy answer comes within five seconds of a write. -/
def HealthyRecent (t : TimedNodesTurn cfgs) : Prop :=
  ∀ x k, ⟨⟨x, .handler k⟩, HandlerEvent.health .ok⟩ ∈ t.emitted →
    ∃ w ∈ t.after.2.written, t.after.2.now ≤ w.time + 5000000000

/-- A stamp is a reading that has been taken before. -/
def Timing.Taken (c : Timing) (now : Nat) (stamp : UInt64) : Prop :=
  ∃ read ≤ now, c.fusion read stamp

private theorem Timing.Taken.mono {c : Timing} {now later : Nat} {stamp : UInt64}
    (h : c.Taken now stamp) (hle : now ≤ later) : c.Taken later stamp := by
  obtain ⟨read, hread, hfusion⟩ := h
  exact ⟨read, hread.trans hle, hfusion⟩

/-- The smoothed offsets in the store are some of those that were written. -/
structure Accounted (c : Timing) (m : Shared) (g : EwmaLog) : Prop where
  entries : ∀ e ∈ m.series (.fused .ewma), ∃ w ∈ g.written, e.score = roundToF64 w.stamp.toNat
  written : ∀ w ∈ g.written, w.time ≤ g.now ∧ c.Taken w.time w.stamp

/-- What an iteration still has to write is stamped with a reading. -/
def Stamped (c : Timing) (now : Nat) (task : FusionTask) : Prop :=
  ∀ w, .tsAdd w ∈ task.effects → w.key = .fused .ewma → c.Taken now w.tsNs

private theorem Stamped.mono {c : Timing} {now later : Nat} {task : FusionTask}
    (h : Stamped c now task) (hle : now ≤ later) : Stamped c later task :=
  fun w hw hkey => (h w hw hkey).mono hle

private theorem FusionStep.stamped {cfg : Config} {c : Timing} {now : Nat} {s s' : FusionState}
    {a : FusionAction} {es : List FusionEvent} (hstep : FusionStep cfg s a s' es)
    (hfuse : ∀ stamp, a = .fuse stamp → c.fusion now stamp) (h : Stamped c now s.task) :
    Stamped c now s'.task := by
  intro w hw hkey
  cases hstep.origin hw with
  | pending he => exact h w he hkey
  | clock metric ts val => contradiction
  | fused stamp ha _ he =>
    rcases mem_publishEffects he with ⟨metric, val, he⟩ | ⟨_, he⟩ | he | ⟨_, he⟩
    · obtain rfl := Effect.tsAdd.inj he
      exact ⟨now, Nat.le_refl now, hfuse stamp ha⟩
    all_goals contradiction

section Runs

variable {c : Timing} {m : Shared} {g : EwmaLog} {ts : List (TimedNodesTurn cfgs)}
  {s s' : NodesState cfgs × EwmaLog}
  {a : Move (fun i : PartIn cfgs => i.2.Action) SharedDrift × Nat} {es : List (NodesEvent cfgs)}

private theorem timed_step (hstep : (timedNodes parse cfgs).step s a = some (s', es)) :
    (nodes parse cfgs).toMachine.step s.1 a.1 = some (s'.1, es) ∧ s'.2 = s.2.after a.2 es := by
  obtain ⟨_, hplain, hlog⟩ := annotate_step.mp hstep
  exact ⟨hplain, hlog⟩

private theorem timed_later (hstep : (timedNodes parse cfgs).step s a = some (s', es)) :
    s.2.now ≤ s'.2.now := by
  rw [(timed_step hstep).2]
  exact Nat.le_add_right _ _

private theorem timed_written (hstep : (timedNodes parse cfgs).step s a = some (s', es)) :
    s'.2.written = s.2.written ++ (es.filterMap ewmaStamp).map (EwmaWrite.mk s'.2.now) := by
  rw [(timed_step hstep).2]
  rfl

private theorem timed_member_step {i : PartIn cfgs} {b : i.2.Action} {n : i.2.State}
    {fs : List i.2.Event} (elapsed : Nat) (hallow : (i.2.read? b).all s.1.medium.answers = true)
    (hlocal : (i.2.machine parse (cfgs i.1)).step (s.1.members i) b = some (n, fs)) :
    (timedNodes parse cfgs).step s (.member i b, elapsed) =
      some ((⟨Function.update s.1.members i n, (i.2.writes fs).foldl Shared.write s.1.medium⟩,
        s.2.after elapsed (fs.map (Sigma.mk i))), fs.map (Sigma.mk i)) :=
  annotate_step.mpr ⟨rfl, member_step (e := nodes parse cfgs) hallow hlocal, rfl⟩

private theorem stamped_turn (hstep : (timedNodes parse cfgs).step s a = some (s', es))
    (hwithin : Within c (⟨s, a, es, s'⟩ : TimedNodesTurn cfgs)) {x : N}
    (h : Stamped c s.2.now (s.1.members ⟨x, .fusion⟩ : FusionState).task) :
    Stamped c s'.2.now (s'.1.members ⟨x, .fusion⟩ : FusionState).task ∧
      ∀ w, ⟨⟨x, .fusion⟩, FusionEvent.tsAdd w⟩ ∈ es → w.key = .fused .ewma →
        c.Taken s'.2.now w.tsNs := by
  obtain ⟨hplain, _⟩ := timed_step hstep
  have hlater := timed_later hstep
  rcases member_turn hplain ⟨x, .fusion⟩ with ⟨_, hsame, hquiet⟩ | ⟨b, fs, ha, _, hlocal, rfl, _⟩
  · rw [hsame]
    exact ⟨h.mono hlater, fun w hw => absurd hw (hquiet _)⟩
  · have hfuse : ∀ stamp, b = FusionAction.fuse stamp → c.fusion s'.2.now stamp := by
      rintro stamp rfl
      exact hwithin.fuse x stamp ha
    have hfusion := FusionStep.of_step hlocal
    refine ⟨hfusion.stamped hfuse (h.mono hlater), ?_⟩
    intro w hw
    rw [List.mem_map_of_injective sigma_mk_injective] at hw
    exact h.mono hlater w (hfusion.published.1 w hw)

private theorem ewmaStamp_of_write {ts : List (NodesTurn cfgs)} {s : NodesState cfgs}
    (hrun : (nodes parse cfgs).toMachine.Run (Nodes.init cfgs m) ts s) {i : PartIn cfgs}
    {e : i.2.Event} (he : ⟨i, e⟩ ∈ events ts) {w : TsAdd} (hwrite : i.2.write? e = some (.tsAdd w))
    (hkey : w.key = .fused .ewma) : ewmaStamp (⟨i, e⟩ : NodesEvent cfgs) = some w.tsNs := by
  have howns := part_owns (run_view hrun i) ((mem_events_view hrun).mpr he) hwrite
  obtain ⟨x, i⟩ := i
  have hi : i = .fusion := by
    by_contra hne
    apply not_owns_fused hne _ howns
    rw [StoreWrite.key, hkey]
    exact .series .ewma
  subst hi
  cases e with
  | tsAdd w' =>
    obtain rfl := StoreWrite.tsAdd.inj (Option.some.inj hwrite)
    exact if_pos hkey
  | _ => simp [Part.write?] at hwrite

private theorem entries_turn {ts : List (NodesTurn cfgs)}
    (hrun : (nodes parse cfgs).toMachine.Run (Nodes.init cfgs m) ts s.1)
    (hstep : (timedNodes parse cfgs).step s a = some (s', es))
    (hwithin : Within c (⟨s, a, es, s'⟩ : TimedNodesTurn cfgs)) (h : Accounted c s.1.medium s.2) :
    ∀ e ∈ s'.1.medium.series (.fused .ewma),
      ∃ w ∈ s'.2.written, e.score = roundToF64 w.stamp.toNat := by
  obtain ⟨hplain, _⟩ := timed_step hstep
  have hwritten := timed_written hstep
  have hold : ∀ e ∈ s.1.medium.series (.fused .ewma),
      ∃ w ∈ s'.2.written, e.score = roundToF64 w.stamp.toNat := by
    intro e he
    obtain ⟨w, hw, hscore⟩ := h.entries e he
    rw [hwritten]
    exact ⟨w, List.mem_append_left _ hw, hscore⟩
  intro e he
  obtain ⟨action, elapsed⟩ := a
  cases action with
  | drift d =>
    obtain ⟨medium, hdrift, hs', _⟩ := step_drift hplain
    rw [hs'] at he
    apply hold
    apply mem_series_drift hdrift _ he
    intro w hw
    exact hwithin.drift w (congrArg _ hw)
  | member i b =>
    obtain ⟨n, fs, _, _, hs', rfl⟩ := step_member hplain
    rw [hs'] at he
    rcases mem_series_writes he with he | ⟨w, hw, hkey, rfl⟩
    · exact hold e he
    · obtain ⟨y, hy, hwrite⟩ := List.mem_filterMap.mp hw
      have hafter := hrun.turn hplain
      have hstamp := ewmaStamp_of_write hafter (mem_events_last (List.mem_map_of_mem hy)) hwrite
        hkey
      refine ⟨⟨s'.2.now, w.tsNs⟩, ?_, rfl⟩
      rw [hwritten]
      apply List.mem_append_right
      apply List.mem_map_of_mem
      exact List.mem_filterMap.mpr ⟨_, List.mem_map_of_mem hy, hstamp⟩

private theorem written_turn (hstep : (timedNodes parse cfgs).step s a = some (s', es))
    (htaken : ∀ x w, ⟨⟨x, .fusion⟩, FusionEvent.tsAdd w⟩ ∈ es → w.key = .fused .ewma →
      c.Taken s'.2.now w.tsNs)
    (h : ∀ w ∈ s.2.written, w.time ≤ s.2.now ∧ c.Taken w.time w.stamp) :
    ∀ w ∈ s'.2.written, w.time ≤ s'.2.now ∧ c.Taken w.time w.stamp := by
  intro w hw
  rw [timed_written hstep] at hw
  rcases List.mem_append.mp hw with hw | hw
  · obtain ⟨hpast, hread⟩ := h w hw
    exact ⟨hpast.trans (timed_later hstep), hread⟩
  · obtain ⟨stamp, hstamp, rfl⟩ := List.mem_map.mp hw
    obtain ⟨e, he, hewma⟩ := List.mem_filterMap.mp hstamp
    obtain ⟨x, w, rfl, hkey, rfl⟩ := ewmaStamp_eq_some hewma
    exact ⟨Nat.le_refl _, htaken x w he hkey⟩

/-- In every run the smoothed offsets are accounted for. -/
theorem run_accounted (hrun : (timedNodes parse cfgs).Run (Nodes.init cfgs m, g) ts s)
    (hwithin : ∀ t ∈ ts, Within c t) (hstart : Accounted c m g) :
    Accounted c s.1.medium s.2 ∧
      ∀ x, Stamped c s.2.now (s.1.members ⟨x, .fusion⟩ : FusionState).task := by
  refine hrun.invariant_of (I := fun _ s => Accounted c s.1.medium s.2 ∧
    ∀ x, Stamped c s.2.now (s.1.members ⟨x, .fusion⟩ : FusionState).task)
    ?_ ?_ hwithin
  · exact ⟨hstart, fun _ w hw => absurd hw List.not_mem_nil⟩
  · rintro ts s a s' es hrun ⟨haccounted, hstamped⟩ hstep hwithin
    have hturn := fun x => stamped_turn hstep hwithin (hstamped x)
    have hwritten := written_turn hstep (fun x => (hturn x).2) haccounted.written
    exact ⟨⟨entries_turn hrun.plain hstep hwithin haccounted, hwritten⟩, fun x => (hturn x).1⟩

private theorem healthy_cases (hplain : (nodes parse cfgs).toMachine.step s.1 a.1 = some (s'.1, es))
    {x : N} {k : Nat} (hok : ⟨⟨x, .handler k⟩, HandlerEvent.health .ok⟩ ∈ es) :
    ∃ now, ∃ e ∈ s.1.medium.series (.fused .ewma),
      s.1.members ⟨x, .handler k⟩ = HandlerTask.health now ∧
      a.1 = .member ⟨x, .handler k⟩ (HandlerAction.last (.fused .ewma) (some (some e))) ∧
      saturatingSub now e.reading.1 < 5000000000 := by
  rcases member_turn hplain ⟨x, .handler k⟩ with
    ⟨_, _, hquiet⟩ | ⟨b, fs, ha, hallow, hlocal, rfl, _⟩
  · exact absurd hok (hquiet _)
  · rw [List.mem_map_of_injective sigma_mk_injective] at hok
    generalize s.1.members ⟨x, .handler k⟩ = task at hlocal ⊢
    generalize s'.1.members ⟨x, .handler k⟩ = task' at hlocal
    cases HandlerStep.of_step hlocal with
    | healthLast now reply =>
      have hstatus := HandlerEvent.health.inj (List.mem_singleton.mp hok)
      match reply, hstatus with
      | some (some e), hstatus =>
        have hlast : IsLast (s.1.medium.series (.fused .ewma)) (some e) := of_decide_eq_true hallow
        refine ⟨now, e, hlast.1, rfl, ha, ?_⟩
        by_contra hold
        rw [healthStatus, if_neg hold] at hstatus
        contradiction
    | _ => simp at hok

private theorem Timing.KeepsUp.recent (hclock : c.KeepsUp)
    (hrun : (timedNodes parse cfgs).Run (Nodes.init cfgs m, g) ts s)
    (hwithin : ∀ t ∈ ts, Within c t) (hstart : Accounted c m g) : ∀ t ∈ ts, HealthyRecent t := by
  intro t ht x k hok
  obtain ⟨us, vs, rfl⟩ := List.append_of_mem ht
  obtain ⟨hbefore, hstep, _⟩ := hrun.middle
  obtain ⟨haccounted, _⟩ :=
    run_accounted hbefore (fun u hu => hwithin u (List.mem_append_left _ hu)) hstart
  obtain ⟨hplain, _⟩ := timed_step hstep
  obtain ⟨now, e, he, htask, haction, hfresh⟩ := healthy_cases hplain hok
  obtain ⟨w, hw, hscore⟩ := haccounted.entries e he
  obtain ⟨hpast, read, hread, hfusion⟩ := haccounted.written w hw
  have hlater := timed_later hstep
  have hreading : e.reading.1 = storedStamp w.stamp := by
    rw [Entry.reading, hscore]
    rfl
  rw [hreading] at hfresh
  have hanswer := (hwithin t ht).answer x k now _ _ htask haction
  have hbound := hclock read w.stamp _ now hfusion hanswer (by omega) hfresh
  refine ⟨w, ?_, by omega⟩
  rw [timed_written hstep]
  exact List.mem_append_left _ hw

end Runs

/-! ## An iteration and a request -/

/-- A node that is its own only peer, with one server. -/
def healthConfig (windowSec : UInt64) : Config :=
  { pollConfig with
    peers := [{ id := 1, ip := "10.0.0.1", port := 9123 }]
    sampling := { intervalMs := 1000, windowSec := windowSec } }

/-- A store with one reading of the server. -/
def readingShared (stamp : UInt64) : Shared :=
  ⟨Function.update emptyStore (.ntp 11 .offset) [⟨roundToF64 stamp.toNat, 5000⟩], fun _ => []⟩

section Stale

variable {c : Timing} {windowSec stamp : UInt64} {F F' : FusionState} {task : HandlerTask}
  {m : Shared} {g : EwmaLog}

abbrev healthCfgs (windowSec : UInt64) : Unit → Config := fun _ => healthConfig windowSec

def healthNodes (windowSec : UInt64) := timedNodes demoParse (healthCfgs windowSec)

abbrev loopPart (windowSec : UInt64) : PartIn (healthCfgs windowSec) := ⟨(), .fusion⟩

abbrev askedPart (windowSec : UInt64) : PartIn (healthCfgs windowSec) := ⟨(), .handler 0⟩

abbrev HealthTurn (windowSec : UInt64) : Type := TimedNodesTurn (healthCfgs windowSec)

private theorem asked_ne_loop (windowSec : UInt64) : askedPart windowSec ≠ loopPart windowSec := by
  intro h
  cases h

/-- Turns with readings of the clock lead to a state of the loop, of the first handler and of the
store. -/
structure Reaches (c : Timing) (windowSec stamp : UInt64) (F : FusionState) (task : HandlerTask)
    (m : Shared) (g : EwmaLog) : Prop where
  run : ∃ ts s, (healthNodes windowSec).Run (Nodes.init _ (readingShared stamp), {}) ts (s, g) ∧
    (∀ t ∈ ts, Within c t) ∧ s.members (loopPart windowSec) = F ∧
    s.members (askedPart windowSec) = task ∧ s.medium = m

private theorem reaches_start (c : Timing) (windowSec stamp : UInt64) :
    Reaches c windowSec stamp (.init (healthConfig windowSec)) .idle (readingShared stamp) {} :=
  ⟨[], _, .start, by simp, rfl, rfl, rfl⟩

private theorem within_loop {t : HealthTurn windowSec} {a : FusionAction}
    (ha : t.action.1 = .member (loopPart windowSec) a)
    (htick : ∀ now, a = .tick now → c.fusion t.after.2.now now)
    (hfuse : ∀ v, a = .fuse v → c.fusion t.after.2.now v) : Within c t := by
  constructor
  · intro x now haction
    cases ha.symm.trans haction
    exact htick now rfl
  · intro x v haction
    cases ha.symm.trans haction
    exact hfuse v rfl
  · intro x k now key reply _ haction
    cases ha.symm.trans haction
  · intro w haction
    cases ha.symm.trans haction

private theorem within_asked {t : HealthTurn windowSec} {a : HandlerAction}
    (ha : t.action.1 = .member (askedPart windowSec) a)
    (hanswer : ∀ now key reply, t.before.1.members (askedPart windowSec) = HandlerTask.health now →
      a = .last key reply → c.health t.after.2.now now) : Within c t := by
  constructor
  · intro x now haction
    cases ha.symm.trans haction
  · intro x v haction
    cases ha.symm.trans haction
  · intro x k now key reply hbefore haction
    cases ha.symm.trans haction
    exact hanswer now key reply hbefore rfl
  · intro w haction
    cases ha.symm.trans haction

private theorem Reaches.loop (h : Reaches c windowSec stamp F task m g) {a : FusionAction}
    {es : List FusionEvent} (elapsed : Nat)
    (hallow : ((loopPart windowSec).2.read? a).all m.answers = true)
    (hstep : (fusion (healthConfig windowSec)).step F a = some (F', es))
    (htick : ∀ now, a = .tick now → c.fusion (g.now + elapsed) now)
    (hfuse : ∀ v, a = .fuse v → c.fusion (g.now + elapsed) v) :
    Reaches c windowSec stamp F' task
      (((loopPart windowSec).2.writes es).foldl Shared.write m)
      (g.after elapsed (es.map (Sigma.mk (loopPart windowSec)))) := by
  obtain ⟨ts, s, hrun, hwithin, rfl, rfl, rfl⟩ := h
  have hturn : (healthNodes windowSec).step (s, g) (.member (loopPart windowSec) a, elapsed) =
      some ((⟨Function.update s.members (loopPart windowSec) F',
        ((loopPart windowSec).2.writes es).foldl Shared.write s.medium⟩,
        g.after elapsed (es.map (Sigma.mk (loopPart windowSec)))),
        es.map (Sigma.mk (loopPart windowSec))) :=
    timed_member_step (i := loopPart windowSec) elapsed hallow hstep
  refine ⟨_, _, hrun.turn hturn, ?_, ?_, ?_, rfl⟩
  · rw [List.forall_mem_append, List.forall_mem_singleton]
    exact ⟨hwithin, within_loop rfl htick hfuse⟩
  · change Function.update s.members (loopPart windowSec) F' (loopPart windowSec) = F'
    rw [Function.update_self]
  · change Function.update s.members (loopPart windowSec) F' (askedPart windowSec) = _
    rw [Function.update_of_ne (asked_ne_loop windowSec)]

private theorem Reaches.recent (h : Reaches c windowSec stamp F task m g) {key : SeriesKey}
    {since : UInt64} {reply : List Entry} (hreads : F.task.reads = some (key, since))
    (hreply : IsRecent (m.series key) since (readLimit (healthConfig windowSec)) reply) :
    Reaches c windowSec stamp
      { F with task := F.task.onReply (healthConfig windowSec) (some reply) } task m g := by
  have hallow : ((loopPart windowSec).2.read? (FusionAction.recent key since
      (readLimit (healthConfig windowSec)) (some reply))).all m.answers = true :=
    decide_eq_true hreply
  have hturn := h.loop 0 hallow (step_recent (some reply) hreads) (by simp) (by simp)
  rwa [g.after_zero rfl] at hturn

private theorem Reaches.publish (h : Reaches c windowSec stamp F task m g) {w : TsAdd}
    {rest : List Effect} (htask : F.task = .publishing (.tsAdd w :: rest)) :
    Reaches c windowSec stamp { F with task := afterEffects rest } task (m.write (.tsAdd w))
      (g.after 0 [⟨loopPart windowSec, FusionEvent.tsAdd w⟩]) := by
  have hstep : (fusion (healthConfig windowSec)).step F .publish =
      some ({ F with task := afterEffects rest }, [.tsAdd w]) := by
    simp only [fusion, fusionStep, htask]
  exact h.loop 0 rfl hstep (by simp) (by simp)

private theorem reaches_collected (windowSec : UInt64) {read : Nat} (hread : c.fusion read stamp) :
    ∃ F since samples, Reaches c windowSec stamp F .idle (readingShared stamp) ⟨read, []⟩ ∧
      F.task = .collecting since [] samples ∧ samples ≠ [] := by
  have htick : (fusion (healthConfig windowSec)).step (.init (healthConfig windowSec))
      (.tick stamp) = some ({ FusionState.init (healthConfig windowSec) with
        task := .collecting (saturatingSub stamp (healthConfig windowSec).windowNs)
          [NtpSource.source { id := 11, host := "a" }] [] }, []) := rfl
  have hstarted := (reaches_start c windowSec stamp).loop read rfl htick
    (by simpa using hread) (by simp)
  have hlog : (({} : EwmaLog).after read ([].map (Sigma.mk (loopPart windowSec)))) =
      ⟨read, []⟩ := by
    simp [EwmaLog.after]
  rw [hlog] at hstarted
  have hsince : roundToF64 (saturatingSub stamp (healthConfig windowSec).windowNs).toNat ≤
      roundToF64 stamp.toNat := by
    apply roundToF64_mono
    rw [toNat_saturatingSub]
    omega
  have hoffsets := hstarted.recent rfl
    (isRecent_alone (e := ⟨roundToF64 stamp.toNat, 5000⟩) hsince)
  have hdelays := hoffsets.recent rfl (isRecent_nil _ _)
  have hjitters := hdelays.recent rfl (isRecent_nil _ _)
  exact ⟨_, _, _, hjitters, rfl, by simp⟩

def fusedWrite (cfg : Config) (metric : FusedMetric) (ts : UInt64) (val : F64) : TsAdd :=
  { key := .fused metric, tsNs := ts, val := val, windowNs := cfg.windowNs }

private theorem reaches_fused {read : Nat} (hread : c.fusion read stamp)
    (hkept : 0 < (healthConfig windowSec).windowNs →
      roundToF64 (saturatingSub stamp (healthConfig windowSec).windowNs).toNat <
        roundToF64 stamp.toNat) :
    ∃ F m e, Reaches c windowSec stamp F .idle m ⟨read, [⟨read, stamp⟩]⟩ ∧
      m.series (.fused .ewma) = [e] ∧ e.score = roundToF64 stamp.toNat := by
  obtain ⟨F, since, samples, hcollected, htask, hne⟩ := reaches_collected windowSec hread
  have hratio : (healthConfig windowSec).filter.trimRatio < 1 / 2 := by
    norm_num [healthConfig, pollConfig]
  obtain ⟨out, ewma, hfuse, hsome⟩ := fuseSamples_some F.ewma samples hratio
  obtain ⟨f, rfl⟩ := Option.isSome_iff_exists.mp (hsome.mpr hne)
  have hfused := hcollected.loop 0 rfl (step_fuse stamp htask hfuse) (by simp)
    (by simpa using hread)
  rw [EwmaLog.after_zero _ (by simp [ewmaStamp])] at hfused
  have hoffset := hfused.publish
    (w := fusedWrite (healthConfig windowSec) .offset stamp f.stats.meanOffsetNs) rfl
  have hdelay := hoffset.publish
    (w := fusedWrite (healthConfig windowSec) .delay stamp f.stats.meanDelayNs) rfl
  have hewma := hdelay.publish
    (w := fusedWrite (healthConfig windowSec) .ewma stamp f.smoothed) rfl
  have hnone : (((readingShared stamp).write (.tsAdd
      (fusedWrite (healthConfig windowSec) .offset stamp f.stats.meanOffsetNs))).write (.tsAdd
      (fusedWrite (healthConfig windowSec) .delay stamp f.stats.meanDelayNs))).series
        (.fused .ewma) = [] := by
    rw [series_write_of_ne (by simp [fusedWrite]), series_write_of_ne (by simp [fusedWrite])]
    rfl
  have hseries := series_write_first
    (w := fusedWrite (healthConfig windowSec) .ewma stamp f.smoothed) hnone hkept
  exact ⟨_, _, ⟨roundToF64 stamp.toNat, f.smoothed⟩, hewma, hseries, rfl⟩

private theorem Reaches.asked (h : Reaches c windowSec stamp F .idle m g) (now : UInt64) :
    Reaches c windowSec stamp F (.health now) m g := by
  obtain ⟨ts, s, hrun, hwithin, rfl, htask, rfl⟩ := h
  have hstep : ((askedPart windowSec).2.machine demoParse (healthConfig windowSec)).step
      (s.members (askedPart windowSec)) (HandlerAction.health now) =
        some (HandlerTask.health now, []) := by
    rw [htask]
    rfl
  have hallow : ((askedPart windowSec).2.read? (HandlerAction.health now)).all
      s.medium.answers = true := rfl
  have hturn : (healthNodes windowSec).step (s, g)
      (.member (askedPart windowSec) (HandlerAction.health now), 0) =
      some ((⟨Function.update s.members (askedPart windowSec) (HandlerTask.health now), s.medium⟩,
        g.after 0 []), []) :=
    timed_member_step (i := askedPart windowSec) (s := (s, g)) 0 hallow hstep
  rw [g.after_zero rfl] at hturn
  refine ⟨_, _, hrun.turn hturn, ?_, ?_, ?_, rfl⟩
  · rw [List.forall_mem_append, List.forall_mem_singleton]
    refine ⟨hwithin, within_asked rfl ?_⟩
    intro now' key reply _ hlast
    contradiction
  · change Function.update s.members (askedPart windowSec) (HandlerTask.health now)
      (loopPart windowSec) = _
    rw [Function.update_of_ne (asked_ne_loop windowSec).symm]
  · change Function.update s.members (askedPart windowSec) (HandlerTask.health now)
      (askedPart windowSec) = _
    rw [Function.update_self]

private theorem Reaches.answered {e : Entry} {now : UInt64}
    (h : Reaches c windowSec stamp F (.health now) m g) (hseries : m.series (.fused .ewma) = [e])
    (hfresh : saturatingSub now e.reading.1 < 5000000000) (elapsed : Nat)
    (hanswer : c.health (g.now + elapsed) now) :
    ∃ (ts : List (HealthTurn windowSec)) (t : HealthTurn windowSec),
      (healthNodes windowSec).Run (Nodes.init _ (readingShared stamp), {}) (ts ++ [t]) t.after ∧
      (∀ u ∈ ts ++ [t], Within c u) ∧
      ⟨askedPart windowSec, HandlerEvent.health .ok⟩ ∈ t.emitted ∧
      t.after.2 = ⟨g.now + elapsed, g.written⟩ := by
  obtain ⟨ts, s, hrun, hwithin, rfl, htask, rfl⟩ := h
  have hstatus : healthStatus now (some (some e)) = .ok := if_pos hfresh
  have hstep : ((askedPart windowSec).2.machine demoParse (healthConfig windowSec)).step
      (s.members (askedPart windowSec)) (HandlerAction.last (.fused .ewma) (some (some e))) =
        some (HandlerTask.idle, [HandlerEvent.health .ok]) := by
    rw [htask, ← hstatus]
    rfl
  have hallow : ((askedPart windowSec).2.read? (HandlerAction.last (.fused .ewma)
      (some (some e)))).all s.medium.answers = true := by
    apply decide_eq_true
    rw [hseries]
    simp [IsLast]
  have hturn : (healthNodes windowSec).step (s, g)
      (.member (askedPart windowSec) (HandlerAction.last (.fused .ewma) (some (some e))), elapsed) =
      some ((⟨Function.update s.members (askedPart windowSec) HandlerTask.idle, s.medium⟩,
        g.after elapsed ([HandlerEvent.health .ok].map (Sigma.mk (askedPart windowSec)))),
        [⟨askedPart windowSec, HandlerEvent.health .ok⟩]) :=
    timed_member_step (i := askedPart windowSec) (s := (s, g)) elapsed hallow hstep
  have hlog : g.after elapsed ([HandlerEvent.health .ok].map (Sigma.mk (askedPart windowSec))) =
      ⟨g.now + elapsed, g.written⟩ := by
    simp [EwmaLog.after, ewmaStamp]
  refine ⟨ts, _, hrun.turn hturn, ?_, List.mem_singleton_self _, hlog⟩
  rw [List.forall_mem_append, List.forall_mem_singleton]
  refine ⟨hwithin, within_asked rfl ?_⟩
  intro now' key reply hbefore _
  obtain rfl := HandlerTask.health.inj (htask.symm.trans hbefore)
  exact hanswer

/-- For any two readings there is an iteration that takes one, and a request that takes the
other and is answered from that iteration. -/
private theorem exists_healthy {read answered : Nat} {now : UInt64} (hread : c.fusion read stamp)
    (hanswer : c.health answered now) (hle : read ≤ answered)
    (hfresh : saturatingSub now (storedStamp stamp) < 5000000000)
    (hkept : 0 < (healthConfig windowSec).windowNs →
      roundToF64 (saturatingSub stamp (healthConfig windowSec).windowNs).toNat <
        roundToF64 stamp.toNat) :
    ∃ (ts : List (HealthTurn windowSec)) (t : HealthTurn windowSec),
      (healthNodes windowSec).Run (Nodes.init _ (readingShared stamp), {}) (ts ++ [t]) t.after ∧
      (∀ u ∈ ts ++ [t], Within c u) ∧
      ⟨askedPart windowSec, HandlerEvent.health .ok⟩ ∈ t.emitted ∧
      t.after.2 = ⟨answered, [⟨read, stamp⟩]⟩ := by
  obtain ⟨F, m, e, hfused, hseries, hscore⟩ := reaches_fused hread hkept
  have hreading : e.reading.1 = storedStamp stamp := by
    rw [Entry.reading, hscore]
    rfl
  have hmoment : read + (answered - read) = answered := by omega
  rw [← hreading] at hfresh
  have hends := (hfused.asked now).answered hseries hfresh (answered - read)
    (by rwa [hmoment])
  rwa [hmoment] at hends

end Stale

/-- In every run with such readings of the clock a healthy answer comes within five seconds of a
write, whatever nodes there are and however their parts take turns. -/
def NeverStale (c : Timing) : Prop :=
  ∀ (N : Type) [DecidableEq N] (parse : String → UInt16 → Option SocketAddr) (cfgs : N → Config)
    (m : Shared) (g : EwmaLog) (ts : List (TimedNodesTurn cfgs)) (s : NodesState cfgs × EwmaLog),
    Accounted c m g → (timedNodes parse cfgs).Run (Nodes.init cfgs m, g) ts s →
      (∀ t ∈ ts, Within c t) → ∀ t ∈ ts, HealthyRecent t

private theorem accounted_readingShared (c : Timing) (stamp : UInt64) :
    Accounted c (readingShared stamp) {} := by
  constructor
  · intro e he
    have hnone : (readingShared stamp).series (.fused .ewma) = [] := rfl
    rw [hnone] at he
    contradiction
  · intro w hw
    contradiction

/-- Health is never reported without recent fusion exactly if the readings of the system clock
keep up with real time. -/
theorem never_stale_iff (c : Timing) : NeverStale c ↔ c.KeepsUp := by
  constructor
  · intro hnever read stamp answered now hread hanswer hle hfresh
    have hwindow : 0 < (healthConfig 0).windowNs →
        roundToF64 (saturatingSub stamp (healthConfig 0).windowNs).toNat <
          roundToF64 stamp.toNat := fun h => absurd h (by decide)
    obtain ⟨ts, t, hrun, hwithin, hok, hlog⟩ := exists_healthy hread hanswer hle hfresh hwindow
    obtain ⟨w, hw, hbound⟩ := hnever Unit demoParse _ _ _ _ _ (accounted_readingShared c stamp) hrun
      hwithin t List.mem_concat_self () 0 hok
    rw [hlog] at hw hbound
    obtain rfl := List.mem_singleton.mp hw
    exact hbound
  · intro hclock N _ parse cfgs m g ts s hstart hrun hwithin
    exact hclock.recent hrun hwithin hstart

/-- One clock for the iterations and for the requests, which are answered at once. -/
def Timing.ofClock (clock : Nat → UInt64) : Timing where
  fusion read stamp := stamp = clock read
  health answered now := now = clock answered

/-- The clock of a node that counts from its boot, as long as its stamps have 53 bits. -/
def bootClock : Timing where
  fusion read stamp := read < 2 ^ 53 ∧ stamp = .ofNat read
  health answered now := answered < 2 ^ 53 ∧ now = .ofNat answered

theorem bootClock_keepsUp : bootClock.KeepsUp := by
  apply Timing.keepsUp_of_le
  rintro read stamp answered now ⟨hread, rfl⟩ ⟨hanswered, rfl⟩ hlater
  have hstamp : (UInt64.ofNat read).toNat = read :=
    UInt64.toNat_ofNat_of_lt (hread.trans (by decide))
  have hnow : (UInt64.ofNat answered).toNat = answered :=
    UInt64.toNat_ofNat_of_lt (hanswered.trans (by decide))
  have hstored : storedStamp (.ofNat read) = .ofNat read := by
    have hfits : min read (2 ^ 64 - 1) = read := by omega
    rw [storedStamp, hstamp, roundToF64_of_lt hread]
    exact congrArg UInt64.ofNat hfits
  rw [hstored, hstamp, hnow]

/-- A clock that is set back by an hour after ten seconds. -/
def steppedClock (now : Nat) : UInt64 :=
  if now < 10000000000 then 1700000000000000000 + .ofNat now
  else 1700000000000000000 + .ofNat now - 3600000000000

/-- Half an hour after the only iteration the answer is still healthy. -/
theorem healthy_after_step : ¬ NeverStale (.ofClock steppedClock) := by
  intro hnever
  have hfresh : saturatingSub (steppedClock 1800000000000) (storedStamp (steppedClock 5000000000)) <
      5000000000 := by decide +kernel
  have hkept : 0 < (healthConfig 30).windowNs →
      roundToF64 (saturatingSub (steppedClock 5000000000) (healthConfig 30).windowNs).toNat <
        roundToF64 (steppedClock 5000000000).toNat := by decide +kernel
  obtain ⟨ts, t, hrun, hwithin, hok, hlog⟩ :=
    exists_healthy (c := .ofClock steppedClock) rfl rfl (by decide) hfresh hkept
  obtain ⟨w, hw, hbound⟩ := hnever Unit demoParse _ _ _ _ _ (accounted_readingShared _ _) hrun
    hwithin t List.mem_concat_self () 0 hok
  rw [hlog] at hw hbound
  obtain rfl := List.mem_singleton.mp hw
  revert hbound
  decide

end Zeitpeer
