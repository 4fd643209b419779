import Mathlib.Data.Finset.Sort
import Mathlib.Data.Prod.Lex

/-!
# Sorted sets

A sorted set holds members with a score each, and orders them by score and then by member. Adding
a member that is there gives it the new score. The entries from a score on are read from the
highest one down, up to a limit.
-/

namespace Framework

universe u v

variable {σ : Type u} {μ : Type v} [LinearOrder σ] [LinearOrder μ]

structure SortedSet (σ : Type u) (μ : Type v) [LinearOrder σ] [LinearOrder μ] where
  entries : Finset (σ ×ₗ μ)
  unique : ∀ x ∈ entries, ∀ y ∈ entries, (ofLex x).2 = (ofLex y).2 → x = y

namespace SortedSet

def empty : SortedSet σ μ where
  entries := ∅
  unique := by simp

/-- `ZADD` of one member. -/
def add (z : SortedSet σ μ) (score : σ) (member : μ) : SortedSet σ μ where
  entries := insert (toLex (score, member)) (z.entries.filter fun x => (ofLex x).2 ≠ member)
  unique := by
    intro x hx y hy hsame
    simp only [Finset.mem_insert, Finset.mem_filter] at hx hy
    rcases hx with rfl | hx <;> rcases hy with rfl | hy
    · rfl
    · exact absurd hsame.symm hy.2
    · exact absurd hsame hx.2
    · exact z.unique x hx.1 y hy.1 hsame

/-- `ZREMRANGEBYSCORE` from the lowest score up to the cutoff. -/
def removeUpTo (z : SortedSet σ μ) (cutoff : σ) : SortedSet σ μ where
  entries := z.entries.filter fun x => cutoff < (ofLex x).1
  unique := by
    intro x hx y hy hsame
    exact z.unique x (Finset.mem_of_mem_filter x hx) y (Finset.mem_of_mem_filter y hy) hsame

/-- `ZREVRANGEBYSCORE` from the highest score down to `since`; without a limit all of them. -/
def revRange (z : SortedSet σ μ) (since : σ) (limit : Option Nat) : List (σ × μ) :=
  let found := ((z.entries.filter fun x => since ≤ (ofLex x).1).sort (· ≥ ·)).map ofLex
  match limit with
  | none => found
  | some n => found.take n

/-- `ZREVRANGE` of the first place. -/
def highest (z : SortedSet σ μ) : Option (σ × μ) := ((z.entries.sort (· ≥ ·)).map ofLex).head?

variable {z z' : SortedSet σ μ} {score since cutoff : σ} {member : μ} {x : σ ×ₗ μ}

theorem eq_of_mem_iff (h : ∀ x, x ∈ z.entries ↔ x ∈ z'.entries) : z = z' := by
  cases z
  cases z'
  congr
  exact Finset.ext h

theorem mem_add : x ∈ (z.add score member).entries ↔
    x = toLex (score, member) ∨ x ∈ z.entries ∧ (ofLex x).2 ≠ member := by
  simp [add]

theorem mem_removeUpTo :
    x ∈ (z.removeUpTo cutoff).entries ↔ x ∈ z.entries ∧ cutoff < (ofLex x).1 := by
  simp [removeUpTo]

/-- A descending read: entries of the set from the score on, at most as many as the limit, and
everything that is left out is below them. -/
structure Descends (z : SortedSet σ μ) (since : σ) (limit : Nat) (l : List (σ × μ)) : Prop where
  descending : l.Pairwise fun x y => toLex y < toLex x
  found : ∀ x ∈ l, toLex x ∈ z.entries ∧ since ≤ x.1
  short : l.length ≤ limit
  complete : ∀ x, toLex x ∈ z.entries → since ≤ x.1 →
    x ∈ l ∨ l.length = limit ∧ ∀ y ∈ l, toLex x < toLex y

private theorem descends_take {l : List (σ × μ)} (hsorted : l.Pairwise fun x y => toLex y < toLex x)
    (hmem : ∀ x, x ∈ l ↔ toLex x ∈ z.entries ∧ since ≤ x.1) (limit : Nat) :
    z.Descends since limit (l.take limit) := by
  constructor
  · exact hsorted.sublist (List.take_sublist _ _)
  · intro x hx
    exact (hmem x).mp (List.mem_of_mem_take hx)
  · simp
  · intro x hx hsince
    have hx' := (hmem x).mpr ⟨hx, hsince⟩
    rw [← List.take_append_drop limit l] at hx' hsorted
    rcases List.mem_append.mp hx' with hx' | hx'
    · exact .inl hx'
    · right
      constructor
      · have hpos := List.length_pos_of_mem hx'
        simp only [List.length_drop, List.length_take] at hpos ⊢
        omega
      · intro y hy
        exact (List.pairwise_append.mp hsorted).2.2 y hy x hx'

theorem descends_revRange (z : SortedSet σ μ) (since : σ) (limit : Nat) :
    z.Descends since limit (z.revRange since (some limit)) := by
  apply descends_take
  · rw [List.pairwise_map]
    exact (Finset.sortedGT_sort _).pairwise
  · intro x
    simp [List.mem_map]

theorem highest_eq_none : z.highest = none ↔ z.entries = ∅ := by
  rw [highest, List.head?_eq_none_iff, List.map_eq_nil_iff]
  constructor
  · intro h
    ext x
    rw [← Finset.mem_sort (· ≥ ·), h]
    simp
  · intro h
    simp [h]

theorem highest_spec {x : σ × μ} (h : z.highest = some x) :
    toLex x ∈ z.entries ∧ ∀ y ∈ z.entries, y ≤ toLex x := by
  have hsorted := (Finset.sortedGT_sort z.entries).pairwise
  have hmem : ∀ y, y ∈ z.entries.sort (· ≥ ·) ↔ y ∈ z.entries := fun y => Finset.mem_sort _
  rw [highest] at h
  generalize z.entries.sort (· ≥ ·) = l at h hsorted hmem
  cases l with
  | nil => simp at h
  | cons y l =>
    obtain rfl : ofLex y = x := by simpa using h
    rw [List.pairwise_cons] at hsorted
    refine ⟨(hmem y).mp List.mem_cons_self, ?_⟩
    intro w hw
    rcases List.mem_cons.mp ((hmem w).mpr hw) with rfl | hw
    · exact le_rfl
    · exact (hsorted.1 w hw).le

end SortedSet
end Framework
