import Zeitpeer.Framework.Blend
import Zeitpeer.Time.Fuse

/-!
# What the average remembers

After its first push the average moves towards every pushed value by a gain that grows with the
weight. The gain is never below the configured one, so whatever the average was is forgotten at
least at that rate, the first value included, which is adopted as it is.
-/

namespace Zeitpeer

open Framework

/-- The share of a pushed value; `alpha` in `push`. -/
def gain (lambda weight : F64) : F64 := clamp 0 1 (lambda * (1 + weight / 4))

/-- Pushes of values with their weights, one after the other. -/
def WeightedEwma.pushAll (e : WeightedEwma) (l : List (F64 × F64)) : WeightedEwma :=
  l.foldl (fun e p => (e.push p.1 p.2).2) e

/-- The shares and values of some pushes. -/
def gains (lambda : F64) (l : List (F64 × F64)) : List (F64 × F64) :=
  l.map fun p => (gain lambda p.2, p.1)

/-- The average's setting is a fraction, and a weight only raises its gain. -/
theorem gain_between {lambda weight : F64} (hlow : 0 ≤ lambda) (hhigh : lambda ≤ 1)
    (hweight : 0 ≤ weight) : lambda ≤ gain lambda weight ∧ gain lambda weight ≤ 1 := by
  have hmore : lambda ≤ lambda * (1 + weight / 4) := by
    have hpart : 0 ≤ lambda * (weight / 4) := mul_nonneg hlow (by linarith)
    linarith
  refine ⟨?_, (clamp_between zero_le_one _).2⟩
  calc lambda = clamp 0 1 lambda := (clamp_of_between hlow hhigh).symm
    _ ≤ gain lambda weight := clamp_mono hmore

private theorem WeightedEwma.pushAll_state {e : WeightedEwma} (hinit : e.init = true)
    (l : List (F64 × F64)) : (e.pushAll l).state = blends e.state (gains e.lambda l) := by
  induction l generalizing e with
  | nil => rfl
  | cons p l ih =>
    have hnext : (e.push p.1 p.2).2.init = true := rfl
    have hstate : (e.push p.1 p.2).2.state =
        gain e.lambda p.2 * p.1 + (1 - gain e.lambda p.2) * e.state := if_pos hinit
    change ((e.push p.1 p.2).2.pushAll l).state = _
    rw [ih hnext, hstate]
    rfl

private theorem WeightedEwma.new_pushAll (lambda value weight : F64) (l : List (F64 × F64)) :
    ((new lambda).pushAll ((value, weight) :: l)).state =
      blends value (gains (clamp 0 1 lambda) l) := by
  change (((new lambda).push value weight).2.pushAll l).state = _
  rw [pushAll_state rfl]
  rfl

/-- After the same pushes two averages differ by at most a power of what the gain leaves, and
every average is a convex combination of what it was and the pushed values, in which what it was
has at most that part. -/
theorem ewma_forgets (lambda : F64) {l : List (F64 × F64)} (hweight : ∀ p ∈ l, 0 ≤ p.2) :
    (∀ e e' : WeightedEwma, e.lambda = clamp 0 1 lambda → e'.lambda = clamp 0 1 lambda →
      e.init = true → e'.init = true →
      |(e.pushAll l).state - (e'.pushAll l).state| ≤
        (1 - clamp 0 1 lambda) ^ l.length * |e.state - e'.state|) ∧
    ∃ left parts, (0 ≤ left ∧ left ≤ (1 - clamp 0 1 lambda) ^ l.length) ∧
      parts.length = l.length ∧ (∀ c ∈ parts, 0 ≤ c) ∧ left + parts.sum = 1 ∧
      (∀ e : WeightedEwma, e.lambda = clamp 0 1 lambda → e.init = true →
        (e.pushAll l).state =
          left * e.state + (List.zipWith (· * ·) parts (l.map Prod.fst)).sum) ∧
      ∀ first weight, ((WeightedEwma.new lambda).pushAll ((first, weight) :: l)).state =
        left * first + (List.zipWith (· * ·) parts (l.map Prod.fst)).sum := by
  obtain ⟨hlow, hhigh⟩ := clamp_between (zero_le_one (α := F64)) lambda
  have hshares : ∀ p ∈ gains (clamp 0 1 lambda) l, clamp 0 1 lambda ≤ p.1 ∧ p.1 ≤ 1 := by
    intro p hp
    obtain ⟨q, hq, rfl⟩ := List.mem_map.mp hp
    exact gain_between hlow hhigh (hweight q hq)
  have hlength : (gains (clamp 0 1 lambda) l).length = l.length := List.length_map _
  have hvalues : (gains (clamp 0 1 lambda) l).map Prod.snd = l.map Prod.fst := by
    rw [gains, List.map_map]
    rfl
  obtain ⟨hpos, hpow⟩ := retained_between hshares
  rw [hlength] at hpow
  refine ⟨?_, retained (gains (clamp 0 1 lambda) l), taken (gains (clamp 0 1 lambda) l),
    ⟨hpos, hpow⟩, by rw [length_taken, hlength], ?_, retained_add_taken _, ?_, ?_⟩
  · intro e e' he he' hinit hinit'
    rw [e.pushAll_state hinit, e'.pushAll_state hinit', he, he', blends_sub, abs_mul,
      abs_of_nonneg hpos]
    exact mul_le_mul_of_nonneg_right hpow (abs_nonneg _)
  · exact taken_nonneg fun p hp => ⟨hlow.trans (hshares p hp).1, (hshares p hp).2⟩
  · intro e he hinit
    rw [e.pushAll_state hinit, he, blends_eq, hvalues]
  · intro first weight
    rw [WeightedEwma.new_pushAll, blends_eq, hvalues]

/-- Two averages a thousand nanoseconds apart with a gain of a half. -/
theorem ewma_forgets_half :
    |((⟨1 / 2, 1000, true⟩ : WeightedEwma).pushAll [(5, 0), (7, 2)]).state -
        ((⟨1 / 2, 0, true⟩ : WeightedEwma).pushAll [(5, 0), (7, 2)]).state| ≤
      (1 - clamp 0 1 (1 / 2)) ^ 2 * |1000 - 0| :=
  (ewma_forgets (1 / 2) (l := [(5, 0), (7, 2)]) (by decide +kernel)).1 _ _ (by decide +kernel)
    (by decide +kernel) rfl rfl

end Zeitpeer
