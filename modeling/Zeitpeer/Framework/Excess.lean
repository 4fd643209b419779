import Mathlib.Algebra.Order.Field.Basic
import Mathlib.Tactic.Linarith

/-!
# How far a value is outside an interval

A blend with a value from an interval leaves of the distance to it at most the share of the other
part, so what is blended with such values again and again comes back at a geometric rate, however
far off it was.
-/

namespace Framework

universe u

variable {β : Type u} [Field β] [LinearOrder β] {low high x : β}

/-- The distance to the interval. -/
def excess (low high x : β) : β := max 0 (max (low - x) (x - high))

theorem excess_nonneg (low high x : β) : 0 ≤ excess low high x := le_max_left _ _

variable [IsStrictOrderedRing β]

theorem excess_le_iff {bound : β} (hbound : 0 ≤ bound) :
    excess low high x ≤ bound ↔ low - bound ≤ x ∧ x ≤ high + bound := by
  rw [excess, max_le_iff, max_le_iff]
  constructor
  · intro h
    constructor <;> linarith [h.2.1, h.2.2]
  · intro h
    exact ⟨hbound, by linarith [h.1], by linarith [h.2]⟩

theorem excess_of_between (h : low ≤ x ∧ x ≤ high) : excess low high x = 0 := by
  apply le_antisymm _ (excess_nonneg low high x)
  rw [excess_le_iff le_rfl, sub_zero, add_zero]
  exact h

/-- The share of the value from the interval is taken off the distance. -/
theorem excess_blend {share y : β} (h0 : 0 ≤ share) (h1 : share ≤ 1) (hx : low ≤ x ∧ x ≤ high) :
    excess low high (share * x + (1 - share) * y) ≤ (1 - share) * excess low high y := by
  have hrest : 0 ≤ 1 - share := by linarith
  obtain ⟨hbelow, habove⟩ := (excess_le_iff (excess_nonneg low high y)).mp le_rfl
  rw [excess_le_iff (mul_nonneg hrest (excess_nonneg low high y))]
  have hxlow := mul_le_mul_of_nonneg_left hx.1 h0
  have hxhigh := mul_le_mul_of_nonneg_left hx.2 h0
  have hylow := mul_le_mul_of_nonneg_left hbelow hrest
  have hyhigh := mul_le_mul_of_nonneg_left habove hrest
  constructor <;> linarith

end Framework
