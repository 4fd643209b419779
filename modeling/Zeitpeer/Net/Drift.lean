import Zeitpeer.Framework.LeastSquares
import Zeitpeer.Net.Poller
import Zeitpeer.Net.Resilience

/-!
# The published drift

The ring holds the last fused offsets in the order in which they came, whatever the iterations
between them did, and the drift that an iteration publishes is its least-squares slope. That
slope is in nanoseconds per nanosecond and is scaled by a thousand only, so the number is in
parts per million just when the slope is zero.
-/

namespace Zeitpeer

open Framework Machine

variable {cfg : Config}

/-- The point that an iteration adds. -/
def FusionTurn.point? (t : FusionTurn) : Option (UInt64 × Int) :=
  match t.action, t.emitted with
  | .fuse ts, [.fused f] => some (ts, F64.toI64 f.smoothed)
  | _, _ => none

/-- All points that a run has produced, in order. -/
def produced (ts : List FusionTurn) : Ring := ts.filterMap FusionTurn.point?

/-- The last 512 of them. -/
def lastPoints (points : Ring) : Ring := points.drop (points.length - 512)

private theorem produced_append (ts us : List FusionTurn) :
    produced (ts ++ us) = produced ts ++ produced us := by
  simp [produced]

private theorem produced_concat_none {points : Ring} {t : FusionTurn} (h : t.point? = none) :
    points ++ produced [t] = points := by
  simp [produced, h]

private theorem drop_last_append {α : Type} (n : Nat) (xs : List α) (x : α) :
    (xs.drop (xs.length - n) ++ [x]).drop ((xs.drop (xs.length - n) ++ [x]).length - n) =
      (xs ++ [x]).drop ((xs ++ [x]).length - n) := by
  have hwhole : xs.drop (xs.length - n) ++ [x] = (xs ++ [x]).drop (xs.length - n) := by
    rw [List.drop_append_of_le_length (Nat.sub_le _ _)]
  rw [hwhole, List.drop_drop]
  congr 1
  simp only [List.length_drop, List.length_append, List.length_singleton]
  omega

private theorem pushRing_lastPoints (points : Ring) (x : UInt64 × Int) :
    pushRing (lastPoints points) x = lastPoints (points ++ [x]) :=
  drop_last_append 512 points x

private theorem length_lastPoints (points : Ring) :
    (lastPoints points).length = min points.length 512 := by
  rw [lastPoints, List.length_drop]
  omega

/-- The drift that an event publishes, in the series or in a command. -/
def FusionEvent.drift? : FusionEvent → Option F64
  | .tsAdd w => if w.key = .fused .driftPpm then some w.val else none
  | .slewed _ drift _ => some drift
  | _ => none

def Effect.drift? : Effect → Option F64
  | .tsAdd w => if w.key = .fused .driftPpm then some w.val else none
  | .slew _ drift => some drift
  | _ => none

/-- The ring holds the last points, and what is left to publish speaks of them. -/
structure RingInStep (points : Ring) (s : FusionState) : Prop where
  ring : s.ring = lastPoints points
  pending : ∀ effects, s.task = .publishing effects → ∀ e ∈ effects, ∀ v, e.drift? = some v →
    3 ≤ s.ring.length ∧ v = linregSlopePpm s.ring

private theorem driftEffects_drift {ts : UInt64} {smoothed : F64} {ring : Ring} {e : Effect}
    {v : F64} (he : e ∈ driftEffects cfg ts smoothed ring) (hv : e.drift? = some v) :
    3 ≤ ring.length ∧ v = linregSlopePpm ring := by
  unfold driftEffects at he
  split at he
  · rename_i hlong
    refine ⟨hlong, ?_⟩
    rcases List.mem_cons.mp he with rfl | he
    · simpa [fusedAdd, Effect.drift?, eq_comm] using hv
    · split at he
      · obtain rfl := List.mem_singleton.mp he
        simpa [Effect.drift?, eq_comm] using hv
      · exact absurd he List.not_mem_nil
  · exact absurd he List.not_mem_nil

private theorem publishEffects_drift {ts : UInt64} {f : Fused} {ring : Ring}
    {samples : List PeerSample}
    {e : Effect} {v : F64} (he : e ∈ publishEffects cfg ts f ring samples)
    (hv : e.drift? = some v) : 3 ≤ ring.length ∧ v = linregSlopePpm ring := by
  have hother : ∀ metric val, metric ≠ FusedMetric.driftPpm →
      (fusedAdd cfg metric ts val).drift? = none := by
    intro metric val hmetric
    simp [fusedAdd, Effect.drift?, hmetric]
  have hreport : ∀ e ∈ reportEffects cfg ts f samples, e.drift? = none := by
    intro e he
    simp only [reportEffects, List.mem_cons, List.mem_append, List.mem_map, List.not_mem_nil,
      or_false] at he
    rcases he with rfl | (⟨s, _, rfl⟩ | rfl) | he
    · rfl
    · rfl
    · rfl
    · split at he
      · obtain rfl := List.mem_singleton.mp he
        rfl
      · exact absurd he List.not_mem_nil
  rcases List.mem_append.mp he with he | he
  · rcases List.mem_append.mp he with he | he
    · simp only [List.mem_cons, List.not_mem_nil, or_false] at he
      rcases he with rfl | rfl | rfl <;> simp [hother] at hv
    · exact driftEffects_drift he hv
  · rw [hreport e he] at hv
    contradiction

private theorem RingInStep.after {points : Ring} {s s' : FusionState} {e : Effect}
    {rest : List Effect}
    (h : RingInStep points s) (htask : s.task = .publishing (e :: rest)) (hring : s'.ring = s.ring)
    (htask' : s'.task = afterEffects rest) : RingInStep points s' := by
  refine ⟨hring.trans h.ring, ?_⟩
  intro effects heffects e' he' v hv
  rw [htask'] at heffects
  cases rest with
  | nil => contradiction
  | cons e'' rest =>
    obtain rfl := FusionTask.publishing.inj heffects
    rw [hring]
    exact h.pending _ htask e' (List.mem_cons_of_mem e he') v hv

private theorem RingInStep.idle {points : Ring} {s s' : FusionState} (h : RingInStep points s)
    (hring : s'.ring = s.ring) (htask : ∀ effects, s'.task ≠ .publishing effects) :
    RingInStep points s' :=
  ⟨hring.trans h.ring, fun effects heffects => absurd heffects (htask effects)⟩

theorem FusionStep.ringInStep {points : Ring} {s s' : FusionState} {a : FusionAction}
    {es : List FusionEvent} (hstep : FusionStep cfg s a s' es) (h : RingInStep points s) :
    RingInStep (points ++ produced [⟨s, a, es, s'⟩]) s' ∧
      ∀ e ∈ es, ∀ v, e.drift? = some v → 3 ≤ s.ring.length ∧ v = linregSlopePpm s.ring := by
  cases hstep with
  | fuse ts htask hfuse =>
    simp only [produced, List.filterMap_cons, FusionTurn.point?, List.filterMap_nil]
    generalize hring : pushRing s.ring _ = ring
    refine ⟨⟨?_, ?_⟩, by simp [FusionEvent.drift?]⟩
    · rw [← hring, h.ring, pushRing_lastPoints]
    · intro effects heffects e he v hv
      obtain rfl := FusionTask.publishing.inj heffects
      exact publishEffects_drift he hv
  | skip now hidle =>
    rw [produced_concat_none rfl]
    exact ⟨h, by simp⟩
  | @tsAdd w rest htask =>
    rw [produced_concat_none rfl]
    refine ⟨h.after htask rfl rfl, ?_⟩
    intro e he v hv
    obtain rfl := List.mem_singleton.mp he
    exact h.pending _ htask (.tsAdd w) List.mem_cons_self v hv
  | @slew offset drift rest htask =>
    rw [produced_concat_none rfl]
    refine ⟨h.after htask rfl rfl, ?_⟩
    intro e he v hv
    obtain rfl := List.mem_singleton.mp he
    exact h.pending _ htask (.slew offset drift) List.mem_cons_self v hv
  | hmSet htask =>
    rw [produced_concat_none rfl]
    exact ⟨h.after htask rfl rfl, by simp [FusionEvent.drift?]⟩
  | phcAbsent htask =>
    rw [produced_concat_none rfl]
    exact ⟨h.after htask rfl rfl, by simp⟩
  | @phcRead c c' ts smoothed rest offset htask =>
    rw [produced_concat_none rfl]
    refine ⟨⟨h.ring, ?_⟩, by simp⟩
    intro effects heffects e he v hv
    obtain rfl := FusionTask.publishing.inj heffects
    rcases mem_phcEffects he with ⟨_, _, rfl⟩ | he
    · simp [Effect.drift?] at hv
    · exact h.pending _ htask e (List.mem_cons_of_mem _ he) v hv
  | _ =>
    rw [produced_concat_none rfl]
    exact ⟨h.idle rfl (by simp), by simp⟩

theorem run_ringInStep {ts : List FusionTurn} {s : FusionState}
    (hrun : (fusion cfg).Run (.init cfg) ts s) : RingInStep (produced ts) s := by
  induction hrun with
  | start => exact ⟨rfl, by simp [FusionState.init]⟩
  | turn _ hstep ih =>
    rw [produced_append]
    exact ((FusionStep.of_step hstep).ringInStep ih).1

private theorem FusionStep.drift_due {s s' : FusionState} {a : FusionAction} {es : List FusionEvent}
    {x : UInt64 × Int} (hstep : FusionStep cfg s a s' es)
    (hpoint : FusionTurn.point? ⟨s, a, es, s'⟩ = some x) (hlong : 3 ≤ s'.ring.length) :
    ∃ effects, s'.task = .publishing effects ∧ ∃ e ∈ effects, e.drift?.isSome = true := by
  cases hstep with
  | @fuse since samples ewma f ts htask hfuse =>
    refine ⟨_, rfl, fusedAdd cfg .driftPpm ts
      (linregSlopePpm (pushRing s.ring (ts, F64.toI64 f.smoothed))), ?_, rfl⟩
    apply List.mem_append_left
    apply List.mem_append_right
    rw [driftEffects, if_pos hlong]
    exact List.mem_cons_self
  | _ => simp [FusionTurn.point?] at hpoint

/-- The points as rationals. -/
def ringPoints (ring : Ring) : List (F64 × F64) :=
  ring.map fun s => ((s.1.toNat : F64), (s.2 : F64))

open LeastSquares in
theorem linregSlopePpm_eq {ring : Ring} (hlong : 3 ≤ ring.length) :
    linregSlopePpm ring = LeastSquares.slope (ringPoints ring) * 1000 := by
  have hshort : ¬ ring.length < 3 := by omega
  simp only [linregSlopePpm, if_neg hshort, LeastSquares.slope, sxx, sxy, meanX, meanY, total,
    ringPoints, List.map_map, List.length_map, Function.comp_def]

/-- The value is the least-squares drift of the points in parts per million. -/
structure DriftInPpm (v : F64) (ring : Ring) : Prop where
  least : ∀ p ∈ ring, ∀ q ∈ ring, p.1 ≠ q.1 →
    ∃ b, LeastSquares.IsLeast (ringPoints ring) (v / 1000000) b
  flat : (∀ p ∈ ring, ∀ q ∈ ring, p.1 = q.1) → v = 0
  /-- On a line it is what a poller derives from two of the points. -/
  line : ∀ a b : F64, (∀ p ∈ ring, (p.2 : F64) = a * p.1.toNat + b) →
    ∀ p ∈ ring, ∀ q ∈ ring, p.1 < q.1 → ∀ (s : PollerState) (sample : NtpSample),
      s.lastTs = some p.1 → s.lastOffset = some (p.2 : F64) →
      sample.timestampNs = q.1 → sample.offsetNs = q.2 → driftPpm s sample = v
  moved : ∀ c d : F64, ∀ ring' : Ring,
    ringPoints ring' = (ringPoints ring).map (LeastSquares.shift c d) → linregSlopePpm ring' = v

private theorem mem_ringPoints {ring : Ring} {p : UInt64 × Int} (hp : p ∈ ring) :
    ((p.1.toNat : F64), (p.2 : F64)) ∈ ringPoints ring :=
  List.mem_map_of_mem hp

private theorem sxx_ringPoints_pos {ring : Ring} {p q : UInt64 × Int} (hp : p ∈ ring)
    (hq : q ∈ ring) (hpq : p.1 ≠ q.1) : 0 < LeastSquares.sxx (ringPoints ring) := by
  apply LeastSquares.sxx_pos (mem_ringPoints hp) (mem_ringPoints hq)
  intro hsame
  exact hpq (UInt64.toNat_inj.mp (Nat.cast_injective hsame))

open LeastSquares in
private theorem driftInPpm_iff {ring : Ring} (hlong : 3 ≤ ring.length) :
    DriftInPpm (linregSlopePpm ring) ring ↔ sxy (ringPoints ring) = 0 := by
  have hne : ringPoints ring ≠ [] := by
    apply List.ne_nil_of_length_pos
    rw [ringPoints, List.length_map]
    omega
  rw [← LeastSquares.slope_eq_zero_iff, linregSlopePpm_eq hlong]
  constructor
  · intro h
    by_cases hpos : 0 < sxx (ringPoints ring)
    · have hspread : ∃ p ∈ ring, ∃ q ∈ ring, p.1 ≠ q.1 := by
        by_contra hsame
        push Not at hsame
        obtain ⟨p, hp⟩ := List.exists_mem_of_length_pos (show 0 < ring.length by omega)
        have hzero : sxx (ringPoints ring) = 0 := by
          apply sxx_of_const (c := (p.1.toNat : F64))
          intro x hx
          obtain ⟨q, hq, rfl⟩ := List.mem_map.mp hx
          rw [hsame q hq p hp]
        exact hpos.ne' hzero
      obtain ⟨p, hp, q, hq, hpq⟩ := hspread
      obtain ⟨b, hleast⟩ := h.least p hp q hq hpq
      have hslope := slope_unique hne hpos hleast
      linarith
    · rw [LeastSquares.slope, if_neg hpos]
  · intro hzero
    rw [hzero, zero_mul]
    refine ⟨?_, fun _ => rfl, ?_, ?_⟩
    · intro p hp q hq hpq
      have hleast := slope_isLeast hne
      rw [hzero] at hleast
      rw [zero_div]
      exact ⟨_, hleast⟩
    · intro a b hline p hp q hq hpq s sample hts hoffset htime hvalue
      have hpos := sxx_ringPoints_pos hp hq (UInt64.ne_of_lt hpq)
      have ha : LeastSquares.slope (ringPoints ring) = a := by
        refine slope_of_line (b := b) ?_ hpos
        intro x hx
        obtain ⟨r, hr, rfl⟩ := List.mem_map.mp hx
        exact hline r hr
      have hsame : (p.2 : F64) = q.2 := by
        rw [hline p hp, hline q hq, ← ha, hzero, zero_mul, zero_mul]
      simp [driftPpm, hts, hoffset, htime, hvalue, hsame]
    · intro c d ring' hmoved
      have hlength : ring'.length = ring.length := by
        have hcongr := congrArg List.length hmoved
        simpa [ringPoints] using hcongr
      rw [linregSlopePpm_eq (by omega), hmoved, slope_shift, hzero, zero_mul]

/-- In every run, every published drift speaks of the last points of the run, and every point
from the third on is followed by one. It is in parts per million exactly if the slope is
zero. -/
theorem drift_ppm_iff {ts us : List FusionTurn} {t : FusionTurn} {s : FusionState}
    (hrun : (fusion cfg).Run (.init cfg) (ts ++ t :: us) s) :
    (∀ e ∈ t.emitted, ∀ v, e.drift? = some v →
      3 ≤ (produced ts).length ∧
        (DriftInPpm v (lastPoints (produced ts)) ↔
          LeastSquares.sxy (ringPoints (lastPoints (produced ts))) = 0)) ∧
      (∀ x, t.point? = some x → 3 ≤ (produced (ts ++ [t])).length →
        ∃ effects, t.after.task = .publishing effects ∧ ∃ e ∈ effects, e.drift?.isSome = true) := by
  obtain ⟨hbefore, hstep, hafter⟩ := hrun.middle
  have hring := run_ringInStep hbefore
  constructor
  · intro e he v hv
    obtain ⟨hlong, rfl⟩ := ((FusionStep.of_step hstep).ringInStep hring).2 e he v hv
    rw [hring.ring] at hlong ⊢
    rw [length_lastPoints] at hlong
    refine ⟨by omega, driftInPpm_iff ?_⟩
    rw [length_lastPoints]
    exact hlong
  · intro x hpoint hlong
    apply (FusionStep.of_step hstep).drift_due hpoint
    rw [(run_ringInStep hafter).ring, length_lastPoints]
    omega

/-- A node in control mode with one server and no smoothing. -/
def driftConfig : Config :=
  { trioConfig with
    mode := { controlEnable := true }
    filter := { trioConfig.filter with lambda := 1 }
    ntpSources := [{ id := 11, host := "a" }] }

def driftIteration (now : UInt64) (offset : F64) (writes : Nat) : List FusionAction :=
  let read := fun metric val => FusionAction.recent (.ntp 11 metric) (now - 30000000000) 1
    (some [⟨roundToF64 now.toNat, val⟩])
  [.tick now, read .offset offset, read .delay 20, read .jitter 0, .fuse now] ++
    List.replicate writes .publish

/-- The hardware clock and the summaries. -/
def driftReport : List FusionAction :=
  [.phcOffset .unreadable .unreadable] ++ List.replicate 3 .publish

/-- The offset grows by a microsecond a second. -/
def driftActions : List FusionAction :=
  driftIteration 1000000000000 0 3 ++ driftReport ++ driftIteration 1001000000000 1000 3 ++
    driftReport ++ driftIteration 1002000000000 2000 5

def driftTurns : List FusionTurn := (fusion driftConfig).turnsOf (.init driftConfig) driftActions

theorem driftTurns_run : ∃ s, (fusion driftConfig).Run (.init driftConfig) driftTurns s := by
  have hexec : ((fusion driftConfig).exec (.init driftConfig) driftActions).isSome = true := by
    decide +kernel
  exact ⟨_, Run.of_actions hexec⟩

def driftPoints : Ring := [(1000000000000, 0), (1001000000000, 1000), (1002000000000, 2000)]

/-- The last two turns publish the drift of the three points, in the series and in a command. -/
theorem driftTurns_split :
    ∃ before t u, driftTurns = before ++ [t, u] ∧ produced before = driftPoints ∧
      (∃ e ∈ t.emitted, e.drift? = some (1 / 1000)) ∧
      ∃ e ∈ u.emitted, e.drift? = some (1 / 1000) := by
  have hlength : (driftTurns.drop 32).length = 2 := by decide +kernel
  obtain ⟨t, u, hlast⟩ := List.length_eq_two.mp hlength
  have hdrifts : (driftTurns.drop 32).map (fun t => t.emitted.filterMap FusionEvent.drift?) =
      [[1 / 1000], [1 / 1000]] := by
    decide +kernel
  rw [hlast] at hdrifts
  obtain ⟨ht, hu⟩ : t.emitted.filterMap FusionEvent.drift? = [1 / 1000] ∧
      u.emitted.filterMap FusionEvent.drift? = [1 / 1000] := by
    simpa using hdrifts
  refine ⟨driftTurns.take 32, t, u, ?_, by decide +kernel, ?_, ?_⟩
  · rw [← hlast, List.take_append_drop]
  · exact List.mem_filterMap.mp (ht ▸ List.mem_singleton_self _)
  · exact List.mem_filterMap.mp (hu ▸ List.mem_singleton_self _)

theorem drift_ppm_iff_line :
    ∃ before t u, driftTurns = before ++ [t, u] ∧
      ((∀ e ∈ t.emitted, ∀ v, e.drift? = some v →
        3 ≤ (produced before).length ∧
          (DriftInPpm v (lastPoints (produced before)) ↔
            LeastSquares.sxy (ringPoints (lastPoints (produced before))) = 0)) ∧
        (∀ x, t.point? = some x → 3 ≤ (produced (before ++ [t])).length →
          ∃ effects, t.after.task = .publishing effects ∧
            ∃ e ∈ effects, e.drift?.isSome = true)) := by
  obtain ⟨before, t, u, hsplit, _⟩ := driftTurns_split
  obtain ⟨s, hrun⟩ := driftTurns_run
  rw [hsplit] at hrun
  exact ⟨before, t, u, hsplit, drift_ppm_iff hrun⟩

/-- A thousandth of the drift is published, in the series and in the command. -/
theorem drift_thousandth :
    (∃ s, (fusion driftConfig).Run (.init driftConfig) driftTurns s) ∧
      ∃ before t u, driftTurns = before ++ [t, u] ∧ produced before = driftPoints ∧
        (∃ e ∈ t.emitted, e.drift? = some (1 / 1000)) ∧
        (∃ e ∈ u.emitted, e.drift? = some (1 / 1000)) ∧
        ¬ DriftInPpm (1 / 1000) (lastPoints (produced before)) := by
  obtain ⟨before, t, u, hsplit, hpoints, ht, hu⟩ := driftTurns_split
  refine ⟨driftTurns_run, before, t, u, hsplit, hpoints, ht, hu, ?_⟩
  rw [hpoints]
  intro h
  have hvalue : linregSlopePpm (lastPoints driftPoints) = 1 / 1000 := by decide +kernel
  rw [← hvalue, driftInPpm_iff (by decide)] at h
  exact absurd h (by decide +kernel)

end Zeitpeer
