import Zeitpeer.Framework.Ensemble

/-!
# Parts of a medium with one writer

Where one member alone changes a part of the medium, this part is what the member's own history
makes of it, and nothing in the interleaving with the others matters.
-/

namespace Framework.Ensemble

open Machine

universe u v w

variable {ι : Type u} {State Action Event : ι → Type v} {Medium Drift : Type w} [DecidableEq ι]
  {e : Ensemble ι State Action Event Medium Drift} {V : Type*}

/-- A turn that is not one of a member's own. -/
def Foreign (i : ι) (t : EnsembleTurn State Action Event Medium Drift) : Prop := turnOf i t = none

theorem foreign_iff {i : ι} {t : EnsembleTurn State Action Event Medium Drift} :
    Foreign i t ↔ ∀ a, t.action ≠ .member i a := by
  constructor
  · intro hforeign a haction
    obtain ⟨u, hturn, _⟩ := turnOf_of_action haction
    rw [hforeign] at hturn
    contradiction
  · intro hother
    by_contra hown
    obtain ⟨u, hturn⟩ := Option.ne_none_iff_exists'.mp hown
    exact hother _ (turnOf_action hturn).1

/-- What a part with one writer holds is its writer's history, replayed. -/
theorem run_replay (part : Medium → V) {i : ι} (write : V → Event i → V)
    (hown : ∀ m es, part (e.absorb m i es) = es.foldl write (part m))
    {start s : Snapshot State Medium} {ts : List (EnsembleTurn State Action Event Medium Drift)}
    (hrun : e.toMachine.Run start ts s)
    (hforeign : ∀ t ∈ ts, Foreign i t → part t.after.medium = part t.before.medium) :
    part s.medium = (Machine.events (view i ts)).foldl write (part start.medium) := by
  refine hrun.invariant_of
    (I := fun ts s => part s.medium = (Machine.events (view i ts)).foldl write (part start.medium))
    (P := fun t => Foreign i t → part t.after.medium = part t.before.medium) rfl ?_ hforeign
  intro ts s a s' es _ ih hstep hquiet
  rw [view_append, Machine.events_append, List.foldl_append, ← ih]
  rcases member_turn hstep i with ⟨hnil, _, _⟩ | ⟨a, fs, rfl, _, _, rfl, hview⟩
  · rw [hnil]
    exact hquiet (List.filterMap_eq_nil_iff.mp hnil _ List.mem_cons_self)
  · obtain ⟨n, gs, _, _, rfl, hsame⟩ := step_member hstep
    have hevents : gs = fs := by
      rw [← filterMap_eventOf_self i gs, ← hsame, filterMap_eventOf_self]
    rw [hview, Machine.events_singleton, ← hown, hevents]

end Framework.Ensemble
