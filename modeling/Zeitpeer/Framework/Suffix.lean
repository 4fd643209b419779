import Mathlib.Data.List.DropRight

/-!
# The end of a list

What comes last in a list, by number or by a test that later elements pass more easily.
-/

namespace Framework

universe u

variable {α : Type u} {xs ys : List α} {p : α → Bool} {n : Nat}

/-- A test that later elements pass more easily keeps the end of a list. -/
theorem filter_suffix {R : α → α → Prop} (h : xs.Pairwise R)
    (hp : ∀ x y, R x y → p x = true → p y = true) : xs.filter p <:+ xs := by
  induction xs with
  | nil => exact List.suffix_refl _
  | cons x xs ih =>
    obtain ⟨hx, hxs⟩ := List.pairwise_cons.mp h
    by_cases hin : p x = true
    · have hall : ∀ y ∈ x :: xs, p y = true := by
        intro y hy
        rcases List.mem_cons.mp hy with rfl | hy
        · exact hin
        · exact hp x y (hx y hy) hin
      exact ⟨[], List.filter_eq_self.mpr hall⟩
    · rw [List.filter_cons_of_neg hin]
      exact (ih hxs).trans (List.suffix_cons x xs)

theorem rtake_suffix (n : Nat) (xs : List α) : xs.rtake n <:+ xs := List.drop_suffix _ _

theorem length_rtake : (xs.rtake n).length = min n xs.length := by
  rw [List.rtake, List.length_drop]
  omega

/-- A suffix is the end of its length. -/
theorem eq_rtake_of_suffix (h : ys <:+ xs) : ys = xs.rtake ys.length := by
  obtain ⟨older, rfl⟩ := h
  rw [List.rtake, List.length_append, Nat.add_sub_cancel, List.drop_left]

/-- An end of the list is an end of any longer suffix. -/
theorem rtake_suffix_of_le (h : ys <:+ xs) (hn : n ≤ ys.length) : xs.rtake n <:+ ys := by
  apply List.suffix_of_suffix_length_le (rtake_suffix n xs) h
  rw [length_rtake]
  omega

/-- Where the elements that pass a test are the last ones, the last so many are among them exactly
if they pass it. -/
theorem le_length_filter_iff (h : xs.filter p <:+ xs) :
    n ≤ (xs.filter p).length ↔ n ≤ xs.length ∧ ∀ x ∈ xs.rtake n, p x = true := by
  constructor
  · intro hn
    refine ⟨hn.trans h.length_le, ?_⟩
    intro x hx
    exact (List.mem_filter.mp ((rtake_suffix_of_le h hn).subset hx)).2
  · rintro ⟨hn, hall⟩
    have hsub : (xs.rtake n).Sublist (xs.filter p) := by
      rw [← List.filter_eq_self.mpr hall]
      exact (rtake_suffix n xs).sublist.filter p
    have hlength := hsub.length_le
    rw [length_rtake] at hlength
    omega

/-- Of the last so many those that pass the test are the last of them. -/
theorem filter_rtake (h : xs.filter p <:+ xs) :
    (xs.rtake n).filter p = xs.rtake (min n (xs.filter p).length) := by
  rcases Nat.le_total n (xs.filter p).length with hfew | hmany
  · rw [Nat.min_eq_left hfew, List.filter_eq_self]
    exact ((le_length_filter_iff h).mp hfew).2
  · rw [Nat.min_eq_right hmany, ← eq_rtake_of_suffix h]
    have hend : xs.filter p <:+ xs.rtake n := by
      apply List.suffix_of_suffix_length_le h (rtake_suffix n xs)
      rw [length_rtake]
      exact Nat.le_min.mpr ⟨hmany, h.length_le⟩
    have hback := hend.sublist.filter p
    simp only [List.filter_filter, Bool.and_self] at hback
    exact ((rtake_suffix n xs).sublist.filter p).antisymm hback

end Framework
