import Mathlib.Data.List.Induction

/-!
# Values derived from their predecessors

A log whose entries are computed from the entries of another one, each from its own and the one
before it. Adding to the one log adds to the other, and what is there does not change.
-/

namespace Framework

universe u v

variable {α : Type u} {β : Type v} (f : Option α → α → β)

def derivedFrom : Option α → List α → List β
  | _, [] => []
  | prev, x :: xs => f prev x :: derivedFrom (some x) xs

/-- Every entry computed from its predecessor and itself, the first one without a predecessor. -/
def derived (xs : List α) : List β := derivedFrom f none xs

@[simp] theorem derived_nil : derived f [] = [] := rfl

theorem derivedFrom_concat (prev : Option α) (xs : List α) (x : α) :
    derivedFrom f prev (xs ++ [x]) = derivedFrom f prev xs ++ [f (xs.getLast?.or prev) x] := by
  induction xs generalizing prev with
  | nil => rfl
  | cons y ys ih =>
    have hlast : ys.getLast?.or (some y) = (y :: ys).getLast?.or prev := by
      rw [List.getLast?_cons]
      cases ys.getLast? <;> rfl
    rw [List.cons_append, derivedFrom, derivedFrom, ih, hlast]
    rfl

/-- One more entry is derived from the last one. -/
theorem derived_concat (xs : List α) (x : α) :
    derived f (xs ++ [x]) = derived f xs ++ [f xs.getLast? x] := by
  rw [derived, derivedFrom_concat, Option.or_none]
  rfl

@[simp] theorem length_derived (xs : List α) : (derived f xs).length = xs.length := by
  induction xs using List.reverseRecOn with
  | nil => rfl
  | append_singleton xs x ih => simp [derived_concat, ih]

end Framework
