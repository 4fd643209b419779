import Zeitpeer.Framework.Ensemble

/-!
# Runs seen through a projection

A machine is often a finer view of another one: some of its turns are turns of the other machine
on a part of its state, and the rest leave this part alone. Leaving these out makes every run of
the one a run of the other, so results about the coarser machine hold of the finer.
-/

namespace Framework

open Machine

universe u v w u' v' w'

variable {State : Type u} {Action : Type v} {Event : Type w} {State' : Type u'}
  {Action' : Type v'} {Event' : Type w'}

/-- What a part of the state and of the turns shows of a machine is another machine. -/
structure Projection (m : Machine State Action Event) (m' : Machine State' Action' Event') where
  state : State → State'
  turn : Turn State Action Event → Option (Turn State' Action' Event')
  shown : ∀ {s a es s' t}, m.step s a = some (s', es) → turn ⟨s, a, es, s'⟩ = some t →
    t.before = state s ∧ t.after = state s' ∧ m'.step t.before t.action = some (t.after, t.emitted)
  hidden : ∀ {s a es s'}, m.step s a = some (s', es) → turn ⟨s, a, es, s'⟩ = none →
    state s' = state s

variable {m : Machine State Action Event} {m' : Machine State' Action' Event'}

namespace Projection

/-- The turns that are shown. -/
def history (p : Projection m m') (ts : List (Turn State Action Event)) :
    List (Turn State' Action' Event') := ts.filterMap p.turn

@[simp] theorem history_append (p : Projection m m') (ts us : List (Turn State Action Event)) :
    p.history (ts ++ us) = p.history ts ++ p.history us :=
  List.filterMap_append

/-- Of a run the other machine sees a run of its own. -/
theorem run (p : Projection m m') {start s : State} {ts : List (Turn State Action Event)}
    (hrun : m.Run start ts s) : m'.Run (p.state start) (p.history ts) (p.state s) := by
  induction hrun with
  | start => exact .start
  | @turn ts s s' a es hrun hstep ih =>
    rw [history_append]
    cases hturn : p.turn ⟨s, a, es, s'⟩ with
    | none =>
      have hsame := p.hidden hstep hturn
      have hnothing : p.history [⟨s, a, es, s'⟩] = [] := by simp [history, hturn]
      rw [hnothing, List.append_nil, hsame]
      exact ih
    | some t =>
      obtain ⟨hbefore, hafter, hlocal⟩ := p.shown hstep hturn
      have hone : p.history [⟨s, a, es, s'⟩] = [t] := by simp [history, hturn]
      obtain ⟨before, b, fs, after⟩ := t
      subst hbefore hafter
      rw [hone]
      exact ih.turn hlocal

/-- What the other machine is seen to emit is the part of the events that it knows. -/
theorem events_history (p : Projection m m') {f : Event → Option Event'}
    (hshown : ∀ {s a es s' t}, m.step s a = some (s', es) → p.turn ⟨s, a, es, s'⟩ = some t →
      t.emitted = es.filterMap f)
    (hhidden : ∀ {s a es s'}, m.step s a = some (s', es) → p.turn ⟨s, a, es, s'⟩ = none →
      es.filterMap f = [])
    {start s : State} {ts : List (Turn State Action Event)} (hrun : m.Run start ts s) :
    events (p.history ts) = (events ts).filterMap f := by
  induction hrun with
  | start => rfl
  | @turn ts s s' a es hrun hstep ih =>
    rw [history_append, events_append, events_append, List.filterMap_append, ih, events_singleton]
    congr 1
    cases hturn : p.turn ⟨s, a, es, s'⟩ with
    | none =>
      rw [hhidden hstep hturn]
      simp [history, hturn]
    | some t =>
      rw [← hshown hstep hturn]
      simp [history, hturn]

end Projection

end Framework
