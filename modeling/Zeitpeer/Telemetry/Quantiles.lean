import Zeitpeer.Framework.Interpolation
import Zeitpeer.Telemetry.Metrics

/-!
# The exported quantiles

`percentile` interpolates between the order statistics of a series: on sorted values it is
ascending in the quantile and meets every order statistic at its place. The values are sorted
first, so the order of the series does not matter.
-/

namespace Zeitpeer

open Framework

/-- The order statistic at a place; beyond the last place there is only the last one. -/
def rank (sorted : List F64) (i : Nat) : F64 := sorted.getD (min i (sorted.length - 1)) 0

variable {values sorted : List F64} {q : F64}

private theorem rank_mem (hne : sorted ≠ []) (i : Nat) : rank sorted i ∈ sorted := by
  have hpos := List.length_pos_of_ne_nil hne
  have hi : min i (sorted.length - 1) < sorted.length := by omega
  rw [rank, List.getD_eq_getElem _ _ hi]
  exact List.getElem_mem hi

private theorem rank_mono (hsorted : sorted.Pairwise (· ≤ ·)) : Monotone (rank sorted) := by
  by_cases hne : sorted = []
  · subst hne
    intro i j _
    exact le_rfl
  · intro i j hij
    have hpos := List.length_pos_of_ne_nil hne
    have hi : min i (sorted.length - 1) < sorted.length := by omega
    have hj : min j (sorted.length - 1) < sorted.length := by omega
    rw [rank, rank, List.getD_eq_getElem _ _ hi, List.getD_eq_getElem _ _ hj]
    exact hsorted.rel_get_of_le (a := ⟨_, hi⟩) (b := ⟨_, hj⟩) (min_le_min_right _ hij)

private theorem percentile_eq (hne : sorted ≠ []) (hlow : 0 ≤ q) (hhigh : q ≤ 1) :
    percentile sorted q = some (interpolate (rank sorted) (q * (sorted.length - 1 : Nat))) := by
  have hpos := List.length_pos_of_ne_nil hne
  have hplace : q * (sorted.length - 1 : Nat) ≤ (sorted.length - 1 : Nat) :=
    mul_le_of_le_one_left (Nat.cast_nonneg _) hhigh
  have hfloor : ⌊q * (sorted.length - 1 : Nat)⌋₊ ≤ sorted.length - 1 :=
    Nat.floor_le_of_le hplace
  have hempty : sorted.isEmpty = false := List.isEmpty_eq_false_iff.mpr hne
  simp only [percentile, hempty, Bool.false_eq_true, if_false, clamp_of_between hlow hhigh,
    Int.floor_toNat, interpolate]
  generalize ⌊q * (sorted.length - 1 : Nat)⌋₊ = k at hfloor
  by_cases hnext : k + 1 < sorted.length
  · rw [if_pos hnext, rank, rank, Nat.min_eq_left hfloor, Nat.min_eq_left (by omega)]
  · have hlast : k = sorted.length - 1 := by omega
    have hsame : rank sorted (k + 1) = rank sorted k := by
      rw [rank, rank, Nat.min_eq_right (by omega), Nat.min_eq_left hfloor, hlast]
    rw [if_neg hnext, hsame, sub_self, zero_mul, add_zero, rank, Nat.min_eq_left hfloor, hlast,
      List.getLast?_eq_getElem?, List.getD_eq_getElem?_getD]
    rw [List.getElem?_eq_getElem (by omega), Option.getD_some]

/-- A value is at least the least one of a series and at most the greatest one. -/
structure InRange (values : List F64) (p : F64) : Prop where
  low : ∃ lo ∈ values, (∀ v ∈ values, lo ≤ v) ∧ lo ≤ p
  high : ∃ hi ∈ values, (∀ v ∈ values, v ≤ hi) ∧ p ≤ hi

private theorem inRange_of_between (hne : sorted ≠ []) (hsorted : sorted.Pairwise (· ≤ ·)) {p : F64}
    {i j : Nat} (hlow : rank sorted i ≤ p) (hhigh : p ≤ rank sorted j) : InRange sorted p := by
  have hmono := rank_mono hsorted
  have hplace : ∀ v ∈ sorted, ∃ k < sorted.length, v = rank sorted k := by
    intro v hv
    obtain ⟨k, hk, rfl⟩ := List.mem_iff_getElem.mp hv
    exact ⟨k, hk, by rw [rank, Nat.min_eq_left (by omega), List.getD_eq_getElem _ _ hk]⟩
  constructor
  · refine ⟨_, rank_mem hne 0, ?_, (hmono (Nat.zero_le i)).trans hlow⟩
    intro v hv
    obtain ⟨k, _, rfl⟩ := hplace v hv
    exact hmono (Nat.zero_le k)
  · have hlast : rank sorted j = rank sorted (min j (sorted.length - 1)) := by
      rw [rank, rank, min_assoc, min_self]
    refine ⟨_, rank_mem hne (sorted.length - 1), ?_, hhigh.trans ?_⟩
    · intro v hv
      obtain ⟨k, _, rfl⟩ := hplace v hv
      exact hmono (by omega)
    · rw [hlast]
      exact hmono (Nat.min_le_right _ _)

private theorem InRange.of_perm {p : F64} (hperm : sorted.Perm values) (h : InRange sorted p) :
    InRange values p := by
  obtain ⟨⟨lo, hlo, hleast, hlow⟩, hi, hhi, hgreatest, hhigh⟩ := h
  exact ⟨⟨lo, hperm.mem_iff.mp hlo, fun v hv => hleast v (hperm.mem_iff.mpr hv), hlow⟩,
    hi, hperm.mem_iff.mp hhi, fun v hv => hgreatest v (hperm.mem_iff.mpr hv), hhigh⟩

/-- What the quantiles of a series are: they lie in its range, ascend, interpolate between the
order statistics around their place, and meet an order statistic at its own place. -/
structure TrueQuantiles (values : List F64) : Prop where
  ascending : ∀ q₁ q₂ : F64, 0 ≤ q₁ → q₁ ≤ q₂ → q₂ ≤ 1 → ∃ p₁ p₂,
    percentile (sortBy id values) q₁ = some p₁ ∧ percentile (sortBy id values) q₂ = some p₂ ∧
      InRange values p₁ ∧ p₁ ≤ p₂ ∧ InRange values p₂
  interpolates : ∀ q : F64, 0 ≤ q → q ≤ 1 → ∀ k : Nat, k ≤ q * (values.length - 1 : Nat) →
    q * (values.length - 1 : Nat) < k + 1 →
      percentile (sortBy id values) q = some (rank (sortBy id values) k +
        (rank (sortBy id values) (k + 1) - rank (sortBy id values) k) *
          (q * (values.length - 1 : Nat) - k))
  hits : 1 < values.length → ∀ k < values.length,
    percentile (sortBy id values) ((k : F64) / (values.length - 1 : Nat)) = (sortBy id values)[k]?

private theorem trueQuantiles (hne : values ≠ []) : TrueQuantiles values := by
  have hperm := sortBy_perm id values
  have hsorted : (sortBy id values).Pairwise (· ≤ ·) := pairwise_sortBy id values
  have hlength := hperm.length_eq
  have hne' : sortBy id values ≠ [] := by
    intro hnil
    exact hne (List.perm_nil.mp (hnil ▸ hperm).symm)
  have hmono := rank_mono hsorted
  have hspan : (0 : F64) ≤ (values.length - 1 : Nat) := Nat.cast_nonneg _
  refine ⟨?ascending, ?interpolates, ?hits⟩
  case ascending =>
    intro q₁ q₂ hlow hle hhigh
    have hplace := mul_nonneg hlow hspan
    have hplaces := mul_le_mul_of_nonneg_right hle hspan
    have hrange : ∀ x, 0 ≤ x → InRange values (interpolate (rank (sortBy id values)) x) := by
      intro x hx
      obtain ⟨hlow, hhigh⟩ := interpolate_between hmono hx
      exact (inRange_of_between hne' hsorted hlow hhigh).of_perm hperm
    rw [percentile_eq hne' hlow (hle.trans hhigh), percentile_eq hne' (hlow.trans hle) hhigh,
      hlength]
    exact ⟨_, _, rfl, rfl, hrange _ hplace, interpolate_mono hmono hplace hplaces,
      hrange _ (hplace.trans hplaces)⟩
  case interpolates =>
    intro q hlow hhigh k hk hk'
    have hplace := mul_nonneg hlow hspan
    have hfloor : ⌊q * (values.length - 1 : Nat)⌋₊ = k :=
      (Nat.floor_eq_iff hplace).mpr ⟨hk, hk'⟩
    rw [percentile_eq hne' hlow hhigh, hlength, interpolate, hfloor]
  case hits =>
    intro hmany k hk
    have hpos : (0 : F64) < (values.length - 1 : Nat) := by
      exact_mod_cast (by omega : 0 < values.length - 1)
    have hcast : (k : F64) ≤ (values.length - 1 : Nat) := by
      exact_mod_cast (by omega : k ≤ values.length - 1)
    rw [percentile_eq hne' (div_nonneg (Nat.cast_nonneg k) hspan) ((div_le_one hpos).mpr hcast),
      hlength, div_mul_cancel₀ _ hpos.ne', interpolate_natCast, rank, hlength,
      Nat.min_eq_left (by omega), List.getD_eq_getElem _ _ (by omega),
      List.getElem?_eq_getElem (by omega)]

private theorem addQuantileSeries_perm (metric : String) {samples samples' : List Entry}
    (h : samples.Perm samples') :
    addQuantileSeries metric samples = addQuantileSeries metric samples' := by
  have hempty : samples.isEmpty = samples'.isEmpty := by
    rw [Bool.eq_iff_iff, List.isEmpty_iff_length_eq_zero, List.isEmpty_iff_length_eq_zero,
      h.length_eq]
  simp only [addQuantileSeries, hempty, sortBy_id_of_perm (h.map Entry.val)]

/-- The quantiles of a series are true ones, and the lines about them do not depend on the order of
its samples. -/
theorem exported_quantiles :
    (∀ values ≠ [], TrueQuantiles values) ∧
      ∀ metric samples samples', List.Perm samples samples' →
        addQuantileSeries metric samples = addQuantileSeries metric samples' :=
  ⟨fun _ hne => trueQuantiles hne, fun metric _ _ h => addQuantileSeries_perm metric h⟩

end Zeitpeer
