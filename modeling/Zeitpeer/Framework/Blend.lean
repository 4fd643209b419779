import Mathlib.Algebra.BigOperators.Group.List.Basic
import Mathlib.Algebra.Order.BigOperators.Ring.List
import Mathlib.Algebra.Order.Field.Basic
import Mathlib.Tactic.Linarith
import Mathlib.Tactic.Ring

/-!
# Chains of blends

A state that moves towards one value after another, each time by a share of its own. What is
left of the first state is the product of the shares that were not taken, so two states that see
the same values approach each other by that factor, and every state is a convex combination of
the first one and the values.
-/

namespace Framework

universe u

variable {β : Type u} [Field β]

/-- The state after moving towards each value by its share; the share comes first. -/
def blends (x : β) (l : List (β × β)) : β := l.foldl (fun x p => p.1 * p.2 + (1 - p.1) * x) x

/-- The part of the first state that is left. -/
def retained (l : List (β × β)) : β := (l.map fun p => 1 - p.1).prod

/-- The parts of the values, in their order. -/
def taken : List (β × β) → List β
  | [] => []
  | p :: l => p.1 * retained l :: taken l

@[simp] theorem blends_nil (x : β) : blends x [] = x := rfl

@[simp] theorem blends_cons (x : β) (p : β × β) (l : List (β × β)) :
    blends x (p :: l) = blends (p.1 * p.2 + (1 - p.1) * x) l := rfl

@[simp] theorem retained_nil : retained ([] : List (β × β)) = 1 := rfl

@[simp] theorem retained_cons (p : β × β) (l : List (β × β)) :
    retained (p :: l) = (1 - p.1) * retained l := by
  simp [retained]

@[simp] theorem length_taken (l : List (β × β)) : (taken l).length = l.length := by
  induction l with
  | nil => rfl
  | cons p l ih => simp [taken, ih]

theorem retained_add_taken (l : List (β × β)) : retained l + (taken l).sum = 1 := by
  induction l with
  | nil => simp [taken]
  | cons p l ih =>
    rw [taken, List.sum_cons, retained_cons]
    calc (1 - p.1) * retained l + (p.1 * retained l + (taken l).sum)
        = retained l + (taken l).sum := by ring
      _ = 1 := ih

/-- The state by its parts. -/
theorem blends_eq (x : β) (l : List (β × β)) :
    blends x l = retained l * x + (List.zipWith (· * ·) (taken l) (l.map Prod.snd)).sum := by
  induction l generalizing x with
  | nil => simp [taken]
  | cons p l ih =>
    rw [blends_cons, ih, retained_cons, taken, List.map_cons, List.zipWith_cons_cons,
      List.sum_cons]
    ring

theorem blends_sub (x y : β) (l : List (β × β)) :
    blends x l - blends y l = retained l * (x - y) := by
  rw [blends_eq, blends_eq]
  ring

section Order

variable [LinearOrder β] [IsStrictOrderedRing β] {low : β} {l : List (β × β)}

/-- Shares of at least `low` leave at most a power of the rest. -/
theorem retained_between (h : ∀ p ∈ l, low ≤ p.1 ∧ p.1 ≤ 1) :
    0 ≤ retained l ∧ retained l ≤ (1 - low) ^ l.length := by
  induction l with
  | nil => simp
  | cons p l ih =>
    obtain ⟨hlow, hhigh⟩ := h p List.mem_cons_self
    obtain ⟨hpos, hpow⟩ := ih fun q hq => h q (List.mem_cons_of_mem _ hq)
    have hrest : 0 ≤ 1 - p.1 := sub_nonneg.mpr hhigh
    have hless : 1 - p.1 ≤ 1 - low := sub_le_sub_left hlow 1
    rw [retained_cons, List.length_cons, pow_succ']
    exact ⟨mul_nonneg hrest hpos, mul_le_mul hless hpow hpos (hrest.trans hless)⟩

theorem taken_nonneg (h : ∀ p ∈ l, 0 ≤ p.1 ∧ p.1 ≤ 1) : ∀ c ∈ taken l, 0 ≤ c := by
  induction l with
  | nil => simp [taken]
  | cons p l ih =>
    have hrest : ∀ q ∈ l, 0 ≤ q.1 ∧ q.1 ≤ 1 := fun q hq => h q (List.mem_cons_of_mem _ hq)
    intro c hc
    rcases List.mem_cons.mp hc with rfl | hc
    · exact mul_nonneg (h p List.mem_cons_self).1 (retained_between hrest).1
    · exact ih hrest c hc

end Order

end Framework
