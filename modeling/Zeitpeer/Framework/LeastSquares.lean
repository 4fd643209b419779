import Mathlib.Algebra.BigOperators.Group.List.Basic
import Mathlib.Algebra.Order.BigOperators.Group.List
import Mathlib.Algebra.Order.Field.Basic
import Mathlib.Tactic.FieldSimp
import Mathlib.Tactic.Linarith
import Mathlib.Tactic.LinearCombination
import Mathlib.Tactic.Positivity
import Mathlib.Tactic.Ring

/-!
# Least-squares lines

A line through points in a plane is judged by the sum of its squared residuals. Centred at the
means that sum is a square in the slope and a square in the intercept, so the ratio of the
centred sums is the slope of the best lines, and of no others once two abscissas differ. It
does not change when the points are moved together, and it is the slope of a line that passes
through all of them.
-/

namespace Framework

universe u

variable {K : Type u} [Field K]

namespace LeastSquares

/-- The sum of a value over the points. -/
def total (f : K × K → K) (pts : List (K × K)) : K := (pts.map f).sum

def meanX (pts : List (K × K)) : K := total Prod.fst pts / pts.length

def meanY (pts : List (K × K)) : K := total Prod.snd pts / pts.length

def sxx (pts : List (K × K)) : K :=
  total (fun p => (p.1 - meanX pts) * (p.1 - meanX pts)) pts

def sxy (pts : List (K × K)) : K :=
  total (fun p => (p.1 - meanX pts) * (p.2 - meanY pts)) pts

/-- The squared residuals of the line with slope `a` and intercept `b`. -/
def residual (pts : List (K × K)) (a b : K) : K :=
  total (fun p => (p.2 - (a * p.1 + b)) ^ 2) pts

@[simp] theorem total_nil (f : K × K → K) : total f [] = 0 := rfl

@[simp] theorem total_cons (f : K × K → K) (p : K × K) (pts : List (K × K)) :
    total f (p :: pts) = f p + total f pts := by
  simp [total]

/-- Centring by any point changes the sums by the deviations from it. -/
theorem total_sub (f : K × K → K) (c : K) (pts : List (K × K)) :
    total (fun p => f p - c) pts = total f pts - pts.length * c := by
  induction pts with
  | nil => simp
  | cons p pts ih =>
    simp only [total_cons, ih, List.length_cons, Nat.cast_succ]
    ring

theorem total_map (f : K × K → K) (g : K × K → K × K) (pts : List (K × K)) :
    total f (pts.map g) = total (fun p => f (g p)) pts := by
  simp [total, Function.comp_def]

theorem total_congr {f g : K × K → K} {pts : List (K × K)} (h : ∀ p ∈ pts, f p = g p) :
    total f pts = total g pts := by
  rw [total, List.map_congr_left h, total]

private theorem total_residual (a b cx cy : K) (pts : List (K × K)) :
    residual pts a b =
      total (fun p => (p.2 - cy) ^ 2) pts -
        2 * a * total (fun p => (p.1 - cx) * (p.2 - cy)) pts +
        a ^ 2 * total (fun p => (p.1 - cx) * (p.1 - cx)) pts +
        2 * (cy - a * cx - b) * total (fun p => p.2 - cy) pts -
        2 * a * (cy - a * cx - b) * total (fun p => p.1 - cx) pts +
        pts.length * (cy - a * cx - b) ^ 2 := by
  induction pts with
  | nil => simp [residual]
  | cons p pts ih =>
    rw [residual] at ih ⊢
    simp only [total_cons, ih, List.length_cons, Nat.cast_succ]
    ring

section Field

variable [CharZero K] {pts : List (K × K)}

theorem total_sub_meanX (hne : pts ≠ []) : total (fun p => p.1 - meanX pts) pts = 0 := by
  have hpos : (pts.length : K) ≠ 0 := by simpa using hne
  rw [total_sub, meanX]
  field_simp
  ring

theorem total_sub_meanY (hne : pts ≠ []) : total (fun p => p.2 - meanY pts) pts = 0 := by
  have hpos : (pts.length : K) ≠ 0 := by simpa using hne
  rw [total_sub, meanY]
  field_simp
  ring

private theorem residual_eq (hne : pts ≠ []) (a b : K) :
    residual pts a b =
      total (fun p => (p.2 - meanY pts) ^ 2) pts - 2 * a * sxy pts + a ^ 2 * sxx pts +
        pts.length * (meanY pts - a * meanX pts - b) ^ 2 := by
  rw [total_residual a b (meanX pts) (meanY pts), total_sub_meanX hne, total_sub_meanY hne, sxy,
    sxx]
  ring

end Field

section Ordered

variable [LinearOrder K] [IsStrictOrderedRing K] {pts : List (K × K)}

/-- No line has smaller squared residuals. -/
def IsLeast (pts : List (K × K)) (a b : K) : Prop :=
  ∀ a' b', residual pts a b ≤ residual pts a' b'

/-- The slope of the best lines; zero if all abscissas are one. -/
def slope (pts : List (K × K)) : K := if 0 < sxx pts then sxy pts / sxx pts else 0

def intercept (pts : List (K × K)) : K := meanY pts - slope pts * meanX pts

theorem total_nonneg {f : K × K → K} (h : ∀ p ∈ pts, 0 ≤ f p) : 0 ≤ total f pts := by
  apply List.sum_nonneg
  intro x hx
  obtain ⟨p, hp, rfl⟩ := List.mem_map.mp hx
  exact h p hp

theorem total_eq_zero {f : K × K → K} (hnonneg : ∀ p ∈ pts, 0 ≤ f p) (htotal : total f pts = 0) :
    ∀ p ∈ pts, f p = 0 := by
  induction pts with
  | nil => simp
  | cons p pts ih =>
    have hhead := hnonneg p List.mem_cons_self
    have hrest : ∀ q ∈ pts, 0 ≤ f q := fun q hq => hnonneg q (List.mem_cons_of_mem p hq)
    have htail := total_nonneg hrest
    rw [total_cons] at htotal
    intro q hq
    rcases List.mem_cons.mp hq with rfl | hq
    · linarith
    · exact ih hrest (by linarith) q hq

theorem sxx_nonneg (pts : List (K × K)) : 0 ≤ sxx pts :=
  total_nonneg fun _ _ => mul_self_nonneg _

private theorem fst_eq_meanX (hzero : sxx pts = 0) : ∀ p ∈ pts, p.1 = meanX pts := by
  intro p hp
  have hsquare := total_eq_zero (fun q _ => mul_self_nonneg (q.1 - meanX pts)) hzero p hp
  exact sub_eq_zero.mp (mul_self_eq_zero.mp hsquare)

/-- Points over one abscissa have no spread. -/
theorem sxx_of_const {c : K} (hsame : ∀ p ∈ pts, p.1 = c) : sxx pts = 0 := by
  by_cases hne : pts = []
  · simp [hne, sxx]
  · have hpos : (pts.length : K) ≠ 0 := by simpa using hne
    have hzero : total (fun p => p.1 - c) pts = 0 := by
      have hall : ∀ p ∈ pts, p.1 - c = 0 := fun p hp => sub_eq_zero.mpr (hsame p hp)
      rw [total_congr hall, total]
      simp
    have hmean : meanX pts = c := by
      rw [total_sub, sub_eq_zero] at hzero
      rw [meanX, div_eq_iff hpos, mul_comm]
      exact hzero
    have hall : ∀ p ∈ pts, (p.1 - meanX pts) * (p.1 - meanX pts) = 0 := by
      intro p hp
      rw [hmean, hsame p hp, sub_self, zero_mul]
    rw [sxx, total_congr hall, total]
    simp

private theorem sxy_of_sxx (hzero : sxx pts = 0) : sxy pts = 0 := by
  have hsame : ∀ p ∈ pts, (p.1 - meanX pts) * (p.2 - meanY pts) = 0 := by
    intro p hp
    rw [fst_eq_meanX hzero p hp, sub_self, zero_mul]
  rw [sxy, total_congr hsame, total]
  simp

private theorem slope_mul_sxx (pts : List (K × K)) : slope pts * sxx pts = sxy pts := by
  by_cases hpos : 0 < sxx pts
  · rw [slope, if_pos hpos, div_mul_cancel₀ _ hpos.ne']
  · have hzero := le_antisymm (not_lt.mp hpos) (sxx_nonneg pts)
    rw [hzero, mul_zero, sxy_of_sxx hzero]

theorem slope_eq_zero_iff (pts : List (K × K)) : slope pts = 0 ↔ sxy pts = 0 := by
  constructor
  · intro hslope
    rw [← slope_mul_sxx, hslope, zero_mul]
  · intro hsxy
    simp [slope, hsxy]

private theorem residual_excess (hne : pts ≠ []) (a b : K) :
    residual pts a b = residual pts (slope pts) (intercept pts) + (a - slope pts) ^ 2 * sxx pts +
      pts.length * (meanY pts - a * meanX pts - b) ^ 2 := by
  rw [residual_eq hne, residual_eq hne (slope pts) (intercept pts), intercept,
    ← slope_mul_sxx pts]
  ring

/-- The centred ratio is the slope of a best line. -/
theorem slope_isLeast (hne : pts ≠ []) : IsLeast pts (slope pts) (intercept pts) := by
  intro a b
  rw [residual_excess hne a b, add_assoc]
  have hslope : 0 ≤ (a - slope pts) ^ 2 * sxx pts := mul_nonneg (sq_nonneg _) (sxx_nonneg pts)
  have hintercept : 0 ≤ (pts.length : K) * (meanY pts - a * meanX pts - b) ^ 2 := by positivity
  linarith

/-- As soon as two abscissas differ, the best lines have one slope. -/
theorem slope_unique (hne : pts ≠ []) (hpos : 0 < sxx pts) {a b : K} (h : IsLeast pts a b) :
    a = slope pts := by
  have hle := h (slope pts) (intercept pts)
  rw [residual_excess hne a b] at hle
  have hslope : 0 ≤ (a - slope pts) ^ 2 * sxx pts := mul_nonneg (sq_nonneg _) hpos.le
  have hintercept : 0 ≤ (pts.length : K) * (meanY pts - a * meanX pts - b) ^ 2 := by positivity
  have hzero : (a - slope pts) ^ 2 * sxx pts = 0 := by linarith
  rcases mul_eq_zero.mp hzero with hsquare | hsxx
  · exact sub_eq_zero.mp (pow_eq_zero_iff two_ne_zero |>.mp hsquare)
  · exact absurd hsxx hpos.ne'

def shift (c d : K) (p : K × K) : K × K := (p.1 + c, p.2 + d)

private theorem meanX_shift (hne : pts ≠ []) (c d : K) :
    meanX (pts.map (shift c d)) = meanX pts + c := by
  have hpos : (pts.length : K) ≠ 0 := by simpa using hne
  have hsum : total (fun p => p.1 + c) pts = total Prod.fst pts + pts.length * c := by
    have hsub := total_sub (fun p : K × K => p.1) (-c) pts
    simpa using hsub
  rw [meanX, total_map, List.length_map, meanX]
  simp only [shift]
  rw [hsum]
  field_simp

private theorem meanY_shift (hne : pts ≠ []) (c d : K) :
    meanY (pts.map (shift c d)) = meanY pts + d := by
  have hpos : (pts.length : K) ≠ 0 := by simpa using hne
  have hsum : total (fun p => p.2 + d) pts = total Prod.snd pts + pts.length * d := by
    have hsub := total_sub (fun p : K × K => p.2) (-d) pts
    simpa using hsub
  rw [meanY, total_map, List.length_map, meanY]
  simp only [shift]
  rw [hsum]
  field_simp

/-- Moving all points together leaves the slope alone. -/
theorem slope_shift (c d : K) (pts : List (K × K)) : slope (pts.map (shift c d)) = slope pts := by
  by_cases hne : pts = []
  · simp [hne]
  · have hsxx : sxx (pts.map (shift c d)) = sxx pts := by
      rw [sxx, total_map, meanX_shift hne]
      simp [shift, sxx]
    have hsxy : sxy (pts.map (shift c d)) = sxy pts := by
      rw [sxy, total_map, meanX_shift hne, meanY_shift hne]
      simp [shift, sxy]
    rw [slope, slope, hsxx, hsxy]

/-- Two points of different abscissas. -/
theorem sxx_pos {p q : K × K} (hp : p ∈ pts) (hq : q ∈ pts) (hpq : p.1 ≠ q.1) : 0 < sxx pts := by
  rcases (sxx_nonneg pts).lt_or_eq with hpos | hzero
  · exact hpos
  · have hall := fst_eq_meanX hzero.symm
    exact absurd ((hall p hp).trans (hall q hq).symm) hpq

/-- On a line through all points the slope is the line's. -/
theorem slope_of_line {a b : K} (hline : ∀ p ∈ pts, p.2 = a * p.1 + b) (hpos : 0 < sxx pts) :
    slope pts = a := by
  have hne : pts ≠ [] := by
    rintro rfl
    simp [sxx] at hpos
  have hzero : residual pts a b = 0 := by
    have hsame : ∀ p ∈ pts, (p.2 - (a * p.1 + b)) ^ 2 = 0 := by
      intro p hp
      rw [hline p hp, sub_self]
      ring
    rw [residual, total_congr hsame, total]
    simp
  have hleast : IsLeast pts a b := by
    intro a' b'
    rw [hzero]
    exact total_nonneg fun _ _ => sq_nonneg _
  exact (slope_unique hne hpos hleast).symm

end Ordered

end LeastSquares
end Framework
