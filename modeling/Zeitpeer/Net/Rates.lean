import Zeitpeer.Framework.Rates
import Zeitpeer.Net.Drift

/-!
# Drifts between the rates of the fused offsets

Whatever the iterations in between did, the published drift and the frequency of the command stay
between the smallest and the largest rate at which the last fused offsets have moved from one to
the next. A single jump moves them no further than its own rate.
-/

namespace Zeitpeer

open Framework Machine LeastSquares

variable {cfg : Config} {low high : F64}

private theorem slewApply_freq_mono (offset offset' : F64) {drift drift' : F64}
    (h : drift ≤ drift') : (slewApply offset drift).freq ≤ (slewApply offset' drift').freq := by
  apply F64.toI64_mono
  apply clamp_mono
  linarith

private theorem FusionStep.slewed {s s' : FusionState} {a : FusionAction} {es : List FusionEvent}
    (hstep : FusionStep cfg s a s' es) {x d : F64} {c : Timex} (hmem : .slewed x d c ∈ es) :
    c = slewApply x d := by
  cases hstep with
  | slew htask =>
    obtain ⟨rfl, rfl, rfl⟩ := FusionEvent.slewed.inj (List.mem_singleton.mp hmem)
    rfl
  | _ => simp at hmem

/-- In every run, what is published about the drift and commanded to make up for it is between the
rates of the last fused offsets, where their stamps rise. -/
theorem drift_between_rates {ts us : List FusionTurn} {t : FusionTurn} {s : FusionState}
    (hrun : (fusion cfg).Run (.init cfg) (ts ++ t :: us) s)
    (hchain : (ringPoints (lastPoints (produced ts))).IsChain (RisesBetween low high)) :
    (∀ e ∈ t.emitted, ∀ v, e.drift? = some v → low * 1000 ≤ v ∧ v ≤ high * 1000) ∧
      ∀ x d c, .slewed x d c ∈ t.emitted → (slewApply 0 (low * 1000)).freq ≤ c.freq ∧
        c.freq ≤ (slewApply 0 (high * 1000)).freq := by
  obtain ⟨hbefore, hstep, _⟩ := hrun.middle
  have hring := run_ringInStep hbefore
  have hdrift : ∀ e ∈ t.emitted, ∀ v, e.drift? = some v → low * 1000 ≤ v ∧ v ≤ high * 1000 := by
    intro e he v hv
    obtain ⟨hlong, rfl⟩ := ((FusionStep.of_step hstep).ringInStep hring).2 e he v hv
    rw [hring.ring] at hlong ⊢
    have hmany : 2 ≤ (ringPoints (lastPoints (produced ts))).length := by
      rw [ringPoints, List.length_map]
      omega
    obtain ⟨hlow, hhigh⟩ := slope_between hmany hchain
    rw [linregSlopePpm_eq hlong]
    constructor <;> linarith
  refine ⟨hdrift, ?_⟩
  intro x d c hmem
  obtain ⟨hlow, hhigh⟩ := hdrift _ hmem d rfl
  rw [(FusionStep.of_step hstep).slewed hmem]
  exact ⟨slewApply_freq_mono 0 x hlow, slewApply_freq_mono x 0 hhigh⟩

/-- The offsets of a node whose clock gains a microsecond a second. -/
theorem drift_between_rates_line :
    ∃ before t u, driftTurns = before ++ [t, u] ∧ (∃ e ∈ t.emitted, e.drift? = some (1 / 1000)) ∧
      ∀ e ∈ t.emitted, ∀ v, e.drift? = some v → 0 * 1000 ≤ v ∧ v ≤ 1 / 500000 * 1000 := by
  obtain ⟨before, t, u, hsplit, hpoints, hdrift, _⟩ := driftTurns_split
  obtain ⟨s, hrun⟩ := driftTurns_run
  rw [hsplit] at hrun
  have hchain : (ringPoints (lastPoints (produced before))).IsChain
      (RisesBetween 0 (1 / 500000)) := by
    rw [hpoints]
    simp only [lastPoints, driftPoints, ringPoints, RisesBetween, List.isChain_cons_cons,
      List.isChain_singleton, List.length_cons, List.length_nil, List.drop_zero, List.map_cons,
      List.map_nil, Nat.reduceAdd, Nat.reduceSub, and_true]
    decide +kernel
  exact ⟨before, t, u, hsplit, hdrift, (drift_between_rates hrun hchain).1⟩

end Zeitpeer
