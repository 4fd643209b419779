import Zeitpeer.Framework.Machine

/-!
# History variables

A run is described in more detail when every action comes with the circumstances that explain
it, and a value that no step reads remembers them. Leaving both out gives back the machine's
own runs, and if every action has an explanation all of them are obtained so.
-/

namespace Framework

universe u v w x y

/-- What explains an action, and what is remembered of its turn. -/
structure History (State : Type u) (Action : Type v) (Event : Type w) (Context : Type x)
    (Ghost : Type y) where
  fits : Action → Context → Bool
  record : Turn State Action Event → Context → Ghost → Ghost

namespace Machine

variable {State : Type u} {Action : Type v} {Event : Type w} {Context : Type x} {Ghost : Type y}

/-- The machine with a history variable. -/
def annotate (m : Machine State Action Event) (h : History State Action Event Context Ghost) :
    Machine (State × Ghost) (Action × Context) Event where
  step := fun s a =>
    if h.fits a.1 a.2 then
      (m.step s.1 a.1).map fun r => ((r.1, h.record ⟨s.1, a.1, r.2, r.1⟩ a.2 s.2), r.2)
    else none

/-- A turn without its explanation. -/
def plain (t : Turn (State × Ghost) (Action × Context) Event) : Turn State Action Event :=
  ⟨t.before.1, t.action.1, t.emitted, t.after.1⟩

variable {m : Machine State Action Event} {h : History State Action Event Context Ghost}

theorem annotate_step {s s' : State × Ghost} {a : Action × Context} {es : List Event} :
    (m.annotate h).step s a = some (s', es) ↔
      h.fits a.1 a.2 = true ∧ m.step s.1 a.1 = some (s'.1, es) ∧
        s'.2 = h.record ⟨s.1, a.1, es, s'.1⟩ a.2 s.2 := by
  constructor
  · intro hstep
    simp only [annotate] at hstep
    split at hstep
    · rename_i hfits
      obtain ⟨r, hr, hpair⟩ := Option.map_eq_some_iff.mp hstep
      obtain ⟨rfl, rfl⟩ := Prod.mk.inj hpair
      exact ⟨hfits, hr, rfl⟩
    · contradiction
  · rintro ⟨hfits, hstep, hghost⟩
    simp only [annotate, hfits, if_true, hstep, Option.map_some, ← hghost]

/-- The history variable does not interfere. -/
theorem Run.plain {start s : State × Ghost}
    {ts : List (Turn (State × Ghost) (Action × Context) Event)}
    (hrun : (m.annotate h).Run start ts s) : m.Run start.1 (ts.map Machine.plain) s.1 := by
  induction hrun with
  | start => exact .start
  | turn _ hstep ih =>
    rw [List.map_append]
    exact ih.turn (annotate_step.mp hstep).2.1

/-- Nor does it leave anything out. -/
theorem Run.explained (hfits : ∀ a, ∃ c, h.fits a c = true) {start s : State}
    {ts : List (Turn State Action Event)} (g : Ghost) (hrun : m.Run start ts s) :
    ∃ us g', (m.annotate h).Run (start, g) us (s, g') ∧ us.map Machine.plain = ts := by
  induction hrun with
  | start => exact ⟨[], g, .start, rfl⟩
  | @turn ts s s' a es hrun hstep ih =>
    obtain ⟨us, g', hus, hplain⟩ := ih
    obtain ⟨c, hc⟩ := hfits a
    have hturn : (m.annotate h).step (s, g') (a, c) =
        some ((s', h.record ⟨s, a, es, s'⟩ c g'), es) :=
      annotate_step.mpr ⟨hc, hstep, rfl⟩
    refine ⟨_, _, hus.turn hturn, ?_⟩
    rw [List.map_append, hplain]
    rfl

end Machine
end Framework
