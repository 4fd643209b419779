import Mathlib.Algebra.Order.Field.Basic
import Mathlib.Algebra.Order.Floor.Semiring
import Mathlib.Order.Monotone.Basic
import Mathlib.Tactic.Linarith

/-!
# Linear interpolation of a sequence

Between two neighbours of an ascending sequence the interpolation stays between them, so it is
ascending within each cell and, as it meets the sequence at the places, across the cells as well.
-/

namespace Framework

universe u

variable {β : Type u} [Field β] [LinearOrder β] [FloorSemiring β]

/-- The value at `x` on the line between the neighbours of `x`. -/
def interpolate (f : ℕ → β) (x : β) : β :=
  f ⌊x⌋₊ + (f (⌊x⌋₊ + 1) - f ⌊x⌋₊) * (x - ⌊x⌋₊)

variable [IsStrictOrderedRing β] {f : ℕ → β} {x y : β}

@[simp] theorem interpolate_natCast (f : ℕ → β) (k : ℕ) : interpolate f k = f k := by
  simp [interpolate]

theorem interpolate_between (hf : Monotone f) (hx : 0 ≤ x) :
    f ⌊x⌋₊ ≤ interpolate f x ∧ interpolate f x ≤ f (⌊x⌋₊ + 1) := by
  have hstep : 0 ≤ f (⌊x⌋₊ + 1) - f ⌊x⌋₊ := sub_nonneg.mpr (hf (Nat.le_succ _))
  have hlow : 0 ≤ x - ⌊x⌋₊ := sub_nonneg.mpr (Nat.floor_le hx)
  have hhigh : x - ⌊x⌋₊ ≤ 1 := by linarith [Nat.lt_floor_add_one x]
  have hpart := mul_le_of_le_one_right hstep hhigh
  have hnonneg := mul_nonneg hstep hlow
  rw [interpolate]
  constructor <;> linarith

theorem interpolate_mono (hf : Monotone f) (hx : 0 ≤ x) (hxy : x ≤ y) :
    interpolate f x ≤ interpolate f y := by
  rcases (Nat.floor_le_floor hxy).eq_or_lt with hcell | hcell
  · have hstep : 0 ≤ f (⌊y⌋₊ + 1) - f ⌊y⌋₊ := sub_nonneg.mpr (hf (Nat.le_succ _))
    rw [interpolate, interpolate, hcell]
    linarith [mul_le_mul_of_nonneg_left (sub_le_sub_right hxy (⌊y⌋₊ : β)) hstep]
  · calc interpolate f x ≤ f (⌊x⌋₊ + 1) := (interpolate_between hf hx).2
      _ ≤ f ⌊y⌋₊ := hf hcell
      _ ≤ interpolate f y := (interpolate_between hf (hx.trans hxy)).1

end Framework
