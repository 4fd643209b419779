import Zeitpeer.Framework.Machine
import Mathlib.Algebra.BigOperators.Group.List.Basic
import Mathlib.Algebra.GroupWithZero.Nat
import Mathlib.Algebra.Order.BigOperators.Group.List

/-!
# Amortised accounts

The turns of a run spend and earn, and the state between them holds what is saved. Where no
turn spends more than it earns and takes from the savings, no run does, however its turns are
ordered.
-/

namespace Framework.Machine

universe u v w

variable {State : Type u} {Action : Type v} {Event : Type w} {m : Machine State Action Event}
  {start : State}

/-- The sum of a measure over the turns. -/
def sumOver (f : Turn State Action Event → Nat) (ts : List (Turn State Action Event)) : Nat :=
  (ts.map f).sum

@[simp] theorem sumOver_nil (f : Turn State Action Event → Nat) : sumOver f [] = 0 := rfl

@[simp] theorem sumOver_append (f : Turn State Action Event → Nat)
    (ts us : List (Turn State Action Event)) :
    sumOver f (ts ++ us) = sumOver f ts + sumOver f us := by
  simp [sumOver]

@[simp] theorem sumOver_singleton (f : Turn State Action Event → Nat)
    (t : Turn State Action Event) : sumOver f [t] = f t := by
  simp [sumOver]

theorem sumOver_add (f g : Turn State Action Event → Nat)
    (ts : List (Turn State Action Event)) :
    sumOver (fun t => f t + g t) ts = sumOver f ts + sumOver g ts := by
  simp [sumOver, List.sum_map_add]

theorem sumOver_mul (k : Nat) (f : Turn State Action Event → Nat)
    (ts : List (Turn State Action Event)) : sumOver (fun t => k * f t) ts = k * sumOver f ts := by
  induction ts with
  | nil => rfl
  | cons t ts ih =>
    rw [sumOver, List.map_cons, List.sum_cons, ← sumOver, ih, ← Nat.mul_add]
    rfl

/-- A measure of the emitted events sums up to that of all events. -/
theorem sumOver_countP (p : Event → Bool) (ts : List (Turn State Action Event)) :
    sumOver (fun t => t.emitted.countP p) ts = (events ts).countP p := by
  rw [sumOver, events, List.countP_flatMap]
  rfl

/-- What a run spends and has left is covered by what it had and has earned. -/
theorem Run.account {C G : Turn State Action Event → Nat} {S : State → Nat}
    (hturn : ∀ s a s' es, m.step s a = some (s', es) →
      C ⟨s, a, es, s'⟩ + S s' ≤ S s + G ⟨s, a, es, s'⟩)
    {ts : List (Turn State Action Event)} {s : State} (hrun : m.Run start ts s) :
    sumOver C ts + S s ≤ S start + sumOver G ts := by
  induction hrun with
  | start => simp
  | turn _ hstep ih =>
    have hlast := hturn _ _ _ _ hstep
    simp only [sumOver_append, sumOver_singleton]
    omega

end Framework.Machine
