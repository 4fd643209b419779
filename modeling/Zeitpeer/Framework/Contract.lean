import Zeitpeer.Framework.Ensemble

/-!
# What members rely on

A contract names what the medium holds, what a member keeps of its own state, and what it offers to
the medium. Each member may rely on what the medium answers; as long as each does its part and
changes from outside are as agreed, the contract is kept in every run.
-/

namespace Framework
namespace Ensemble

universe u v w

variable {ι : Type u} {State Action Event : ι → Type v} {Medium Drift : Type w} [DecidableEq ι]

structure Contract (e : Ensemble ι State Action Event Medium Drift) where
  holds : Medium → Prop
  keeps : (i : ι) → State i → Prop
  relies : (i : ι) → Action i → Prop
  offers : (i : ι) → Event i → Prop
  agreed : Drift → Prop
  answers : ∀ {m i a}, holds m → e.allows m i a = true → relies i a
  acts : ∀ {i s a s' es}, keeps i s → relies i a → (e.machine i).step s a = some (s', es) →
    keeps i s' ∧ ∀ x ∈ es, offers i x
  absorbs : ∀ {m i es}, holds m → (∀ x ∈ es, offers i x) → holds (e.absorb m i es)
  drifts : ∀ {m d n}, holds m → agreed d → e.drift m d = some n → holds n

namespace Contract

variable {e : Ensemble ι State Action Event Medium Drift} (c : Contract e)

/-- The medium and all members are as the contract says. -/
structure Kept (s : Snapshot State Medium) : Prop where
  medium : c.holds s.medium
  members : ∀ i, c.keeps i (s.members i)

/-- What the medium does by itself in this turn is as agreed. -/
def Agreed (t : EnsembleTurn State Action Event Medium Drift) : Prop :=
  ∀ d, t.action = .drift d → c.agreed d

variable {c}

theorem Kept.step {s s' : Snapshot State Medium} {a : Move Action Drift} {es : List (Sigma Event)}
    (h : c.Kept s) (hstep : e.toMachine.step s a = some (s', es))
    (hagreed : c.Agreed ⟨s, a, es, s'⟩) : c.Kept s' ∧ ∀ x ∈ es, c.offers x.1 x.2 := by
  cases a with
  | drift d =>
    obtain ⟨medium, hdrift, rfl, rfl⟩ := step_drift hstep
    refine ⟨⟨c.drifts h.medium (hagreed d rfl) hdrift, h.members⟩, ?_⟩
    exact fun x hx => absurd hx List.not_mem_nil
  | member i a =>
    obtain ⟨n, fs, hallow, hlocal, rfl, rfl⟩ := step_member hstep
    obtain ⟨hkeeps, hoffers⟩ := c.acts (h.members i) (c.answers h.medium hallow) hlocal
    refine ⟨⟨c.absorbs h.medium hoffers, ?_⟩, ?_⟩
    · intro j
      by_cases hj : j = i
      · subst hj
        simpa using hkeeps
      · simpa [Function.update_of_ne hj] using h.members j
    · intro x hx
      obtain ⟨y, hy, rfl⟩ := List.mem_map.mp hx
      exact hoffers y hy

/-- A contract that is kept at the start is kept in every run whose drifts are as agreed, and
whatever is offered is of the contract. -/
theorem Kept.run {start s : Snapshot State Medium} (h : c.Kept start)
    {ts : List (EnsembleTurn State Action Event Medium Drift)}
    (hrun : e.toMachine.Run start ts s) (hagreed : ∀ t ∈ ts, c.Agreed t) :
    c.Kept s ∧ ∀ x ∈ Machine.events ts, c.offers x.1 x.2 := by
  refine hrun.invariant_of
    (I := fun ts s => c.Kept s ∧ ∀ x ∈ Machine.events ts, c.offers x.1 x.2) ⟨h, by simp⟩ ?_ hagreed
  intro ts s a s' es _ hbefore hstep hturn
  obtain ⟨hafter, hoffers⟩ := hbefore.1.step hstep hturn
  refine ⟨hafter, ?_⟩
  intro x hx
  rcases Machine.mem_events_concat.mp hx with hx | hx
  · exact hbefore.2 x hx
  · exact hoffers x hx

end Contract

end Ensemble
end Framework
