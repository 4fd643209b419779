import Zeitpeer.Framework.Machine
import Mathlib.Logic.Function.Basic

/-!
# Machines around a shared medium

Members of an ensemble meet only in a medium: it decides which actions a member may take now,
takes in what the member emits, and changes by itself. Whatever the medium does, each member
sees a run of its own machine, so results about single machines carry over to the ensemble.
-/

namespace Framework

universe u v w

/-- A family of machines with the medium between them. -/
structure Ensemble (ι : Type u) (State Action Event : ι → Type v) (Medium Drift : Type w) where
  machine : (i : ι) → Machine (State i) (Action i) (Event i)
  allows : Medium → (i : ι) → Action i → Bool
  absorb : Medium → (i : ι) → List (Event i) → Medium
  drift : Medium → Drift → Option Medium

namespace Ensemble

variable {ι : Type u} {State Action Event : ι → Type v} {Medium Drift : Type w}

/-- The states of all members and of the medium. -/
structure Snapshot (State : ι → Type v) (Medium : Type w) where
  members : (i : ι) → State i
  medium : Medium

inductive Move (Action : ι → Type v) (Drift : Type w) where
  | member (i : ι) (a : Action i)
  | drift (d : Drift)

variable [DecidableEq ι]

def step (e : Ensemble ι State Action Event Medium Drift) (s : Snapshot State Medium) :
    Move Action Drift → Option (Snapshot State Medium × List (Sigma Event))
  | .member i a =>
    if e.allows s.medium i a then
      ((e.machine i).step (s.members i) a).map fun r =>
        (⟨Function.update s.members i r.1, e.absorb s.medium i r.2⟩, r.2.map (Sigma.mk i))
    else none
  | .drift d => (e.drift s.medium d).map fun medium => ({ s with medium }, [])

/-- The ensemble as one machine. -/
def toMachine (e : Ensemble ι State Action Event Medium Drift) :
    Machine (Snapshot State Medium) (Move Action Drift) (Sigma Event) := ⟨e.step⟩

variable {e : Ensemble ι State Action Event Medium Drift}

theorem step_member {s s' : Snapshot State Medium} {i : ι} {a : Action i}
    {es : List (Sigma Event)} (hstep : e.toMachine.step s (.member i a) = some (s', es)) :
    ∃ n fs, e.allows s.medium i a = true ∧
      (e.machine i).step (s.members i) a = some (n, fs) ∧
      s' = ⟨Function.update s.members i n, e.absorb s.medium i fs⟩ ∧ es = fs.map (Sigma.mk i) := by
  simp only [toMachine, step] at hstep
  split at hstep
  · rename_i hallow
    obtain ⟨⟨n, fs⟩, hlocal, hpair⟩ := Option.map_eq_some_iff.mp hstep
    obtain ⟨rfl, rfl⟩ := Prod.mk.inj hpair
    exact ⟨n, fs, hallow, hlocal, rfl, rfl⟩
  · contradiction

theorem member_step {s : Snapshot State Medium} {i : ι} {a : Action i} {n : State i}
    {fs : List (Event i)} (hallow : e.allows s.medium i a = true)
    (hlocal : (e.machine i).step (s.members i) a = some (n, fs)) :
    e.toMachine.step s (.member i a) =
      some (⟨Function.update s.members i n, e.absorb s.medium i fs⟩, fs.map (Sigma.mk i)) := by
  simp only [toMachine, step]
  rw [if_pos hallow, hlocal, Option.map_some]

theorem step_drift {s s' : Snapshot State Medium} {d : Drift} {es : List (Sigma Event)}
    (hstep : e.toMachine.step s (.drift d) = some (s', es)) :
    ∃ medium, e.drift s.medium d = some medium ∧ s' = { s with medium } ∧ es = [] := by
  simp only [toMachine, step] at hstep
  obtain ⟨medium, hdrift, hpair⟩ := Option.map_eq_some_iff.mp hstep
  obtain ⟨rfl, rfl⟩ := Prod.mk.inj hpair
  exact ⟨medium, hdrift, rfl, rfl⟩

abbrev EnsembleTurn (State Action Event : ι → Type v) (Medium Drift : Type w) :=
  Turn (Snapshot State Medium) (Move Action Drift) (Sigma Event)

/-- An event as one member's own. -/
def eventOf (i : ι) (x : Sigma Event) : Option (Event i) :=
  if h : x.1 = i then some (h ▸ x.2) else none

/-- A turn as one member's own. -/
def turnOf (i : ι) (t : EnsembleTurn State Action Event Medium Drift) :
    Option (Turn (State i) (Action i) (Event i)) :=
  match t.action with
  | .member j a =>
    if h : j = i then
      some ⟨t.before.members i, h ▸ a, t.emitted.filterMap (eventOf i), t.after.members i⟩
    else none
  | .drift _ => none

/-- The history of one member. -/
def view (i : ι) (ts : List (EnsembleTurn State Action Event Medium Drift)) :
    List (Turn (State i) (Action i) (Event i)) := ts.filterMap (turnOf i)

@[simp] theorem eventOf_self (i : ι) (x : Event i) : eventOf i ⟨i, x⟩ = some x := by
  simp [eventOf]

theorem eventOf_ne {i j : ι} (h : j ≠ i) (x : Event j) : eventOf i ⟨j, x⟩ = none := by
  simp [eventOf, h]

private theorem eventOf_eq_some {i : ι} {e : Sigma Event} {x : Event i} :
    eventOf i e = some x ↔ e = ⟨i, x⟩ := by
  obtain ⟨j, y⟩ := e
  by_cases h : j = i
  · subst h
    simp
  · simp [eventOf_ne h, h]

theorem filterMap_eventOf_self (i : ι) (es : List (Event i)) :
    (es.map (Sigma.mk i)).filterMap (eventOf i) = es := by
  induction es with
  | nil => rfl
  | cons x es ih => simp [ih]

@[simp] theorem view_nil (i : ι) :
    view i ([] : List (EnsembleTurn State Action Event Medium Drift)) = [] := rfl

theorem view_append (i : ι) (ts us : List (EnsembleTurn State Action Event Medium Drift)) :
    view i (ts ++ us) = view i ts ++ view i us := by
  simp [view]

theorem turnOf_action {i : ι} {u : EnsembleTurn State Action Event Medium Drift}
    {t : Turn (State i) (Action i) (Event i)} (hturn : turnOf i u = some t) :
    u.action = .member i t.action ∧ u.before.members i = t.before ∧
      u.emitted.filterMap (eventOf i) = t.emitted := by
  unfold turnOf at hturn
  split at hturn
  · rename_i j a haction
    split at hturn
    · rename_i h
      subst h
      obtain rfl := Option.some.inj hturn
      exact ⟨haction, rfl, rfl⟩
    · contradiction
  · contradiction

theorem mem_view {i : ι} {ts : List (EnsembleTurn State Action Event Medium Drift)}
    {t : Turn (State i) (Action i) (Event i)} (ht : t ∈ view i ts) :
    ∃ u ∈ ts, u.action = .member i t.action ∧ u.before.members i = t.before := by
  obtain ⟨u, hu, hturn⟩ := List.mem_filterMap.mp ht
  exact ⟨u, hu, (turnOf_action hturn).1, (turnOf_action hturn).2.1⟩

/-- A turn of a member is in its history. -/
theorem turnOf_of_action {i : ι} {u : EnsembleTurn State Action Event Medium Drift} {a : Action i}
    (haction : u.action = .member i a) : ∃ t, turnOf i u = some t ∧ t.action = a := by
  simp [turnOf, haction]

theorem mem_view_of_action {i : ι} {ts : List (EnsembleTurn State Action Event Medium Drift)}
    {u : EnsembleTurn State Action Event Medium Drift} (hu : u ∈ ts) {a : Action i}
    (haction : u.action = .member i a) : ∃ t ∈ view i ts, t.action = a := by
  obtain ⟨t, hturn, hact⟩ := turnOf_of_action haction
  exact ⟨t, List.mem_filterMap.mpr ⟨u, hu, hturn⟩, hact⟩

/-- A split of one member's history is a split of the whole one. -/
theorem view_split {i : ι} {ts : List (EnsembleTurn State Action Event Medium Drift)}
    {before after : List (Turn (State i) (Action i) (Event i))}
    {t : Turn (State i) (Action i) (Event i)} (hview : view i ts = before ++ t :: after) :
    ∃ us u vs, ts = us ++ u :: vs ∧ view i us = before ∧ turnOf i u = some t ∧
      view i vs = after := by
  obtain ⟨us, rest, rfl, hus, hrest⟩ := List.filterMap_eq_append_iff.mp hview
  obtain ⟨skipped, u, vs, rfl, hskipped, hu, hvs⟩ := List.filterMap_eq_cons_iff.mp hrest
  refine ⟨us ++ skipped, u, vs, (List.append_assoc _ _ _).symm, ?_, hu, hvs⟩
  have hnone : view i skipped = [] := List.filterMap_eq_nil_iff.mpr hskipped
  rw [view_append, hnone, List.append_nil]
  exact hus

/-- A turn is one of a given member, or it is nothing to this member. -/
theorem member_turn {s s' : Snapshot State Medium} {m : Move Action Drift}
    {es : List (Sigma Event)} (hstep : e.toMachine.step s m = some (s', es)) (i : ι) :
    (view i [⟨s, m, es, s'⟩] = [] ∧ s'.members i = s.members i ∧ ∀ x, ⟨i, x⟩ ∉ es) ∨
      ∃ a fs, m = .member i a ∧ e.allows s.medium i a = true ∧
        (e.machine i).step (s.members i) a = some (s'.members i, fs) ∧
        es = fs.map (Sigma.mk i) ∧
        view i [⟨s, m, es, s'⟩] = [⟨s.members i, a, fs, s'.members i⟩] := by
  cases m with
  | member j a =>
    obtain ⟨n, fs, hallow, hlocal, rfl, rfl⟩ := step_member hstep
    by_cases h : j = i
    · subst h
      refine .inr ⟨a, fs, rfl, hallow, by simpa using hlocal, rfl, ?_⟩
      simp [view, turnOf]
    · refine .inl ⟨by simp [view, turnOf, h], ?_, ?_⟩
      · simp [Function.update_of_ne (Ne.symm h)]
      · intro x hx
        obtain ⟨_, _, heq⟩ := List.mem_map.mp hx
        exact h (congrArg Sigma.fst heq)
  | drift d =>
    obtain ⟨medium, _, rfl, rfl⟩ := step_drift hstep
    exact .inl ⟨by simp [view, turnOf], rfl, by simp⟩

/-- One member's share of a turn is a step of its machine, or nothing. -/
theorem view_turn {s s' : Snapshot State Medium} {m : Move Action Drift}
    {es : List (Sigma Event)} (hstep : e.toMachine.step s m = some (s', es)) (i : ι) :
    (view i [⟨s, m, es, s'⟩] = [] ∧ s'.members i = s.members i ∧ es.filterMap (eventOf i) = []) ∨
      ∃ a, (e.machine i).step (s.members i) a = some (s'.members i, es.filterMap (eventOf i)) ∧
        view i [⟨s, m, es, s'⟩] =
          [⟨s.members i, a, es.filterMap (eventOf i), s'.members i⟩] := by
  rcases member_turn hstep i with ⟨hview, hsame, hquiet⟩ | ⟨a, fs, _, _, hlocal, rfl, hview⟩
  · refine .inl ⟨hview, hsame, List.filterMap_eq_nil_iff.mpr ?_⟩
    intro x hx
    by_contra hsome
    obtain ⟨y, hy⟩ := Option.ne_none_iff_exists'.mp hsome
    exact hquiet y (eventOf_eq_some.mp hy ▸ hx)
  · rw [filterMap_eventOf_self]
    exact .inr ⟨a, hlocal, hview⟩

/-- What a member has emitted it has emitted in a turn of its own. -/
theorem turnOf_of_emitted {s s' : Snapshot State Medium} {m : Move Action Drift}
    {es : List (Sigma Event)} (hstep : e.toMachine.step s m = some (s', es)) {i : ι}
    {x : Event i} (hx : ⟨i, x⟩ ∈ es) :
    ∃ t, turnOf i ⟨s, m, es, s'⟩ = some t ∧ x ∈ t.emitted := by
  cases m with
  | member j a =>
    obtain ⟨n, fs, _, _, rfl, rfl⟩ := step_member hstep
    obtain ⟨y, hy, heq⟩ := List.mem_map.mp hx
    obtain ⟨rfl, hxy⟩ := Sigma.mk.inj heq
    have hmem : x ∈ (fs.map (Sigma.mk j)).filterMap (eventOf j) :=
      List.mem_filterMap.mpr ⟨_, hx, eventOf_self j x⟩
    refine ⟨⟨s.members j, a, (fs.map (Sigma.mk j)).filterMap (eventOf j),
      Function.update s.members j n j⟩, ?_, hmem⟩
    simp only [turnOf, dif_pos]
  | drift d =>
    obtain ⟨_, _, _, rfl⟩ := step_drift hstep
    exact absurd hx List.not_mem_nil

/-- Every member sees a run of its own machine. -/
theorem run_view {start s : Snapshot State Medium}
    {ts : List (EnsembleTurn State Action Event Medium Drift)}
    (hrun : e.toMachine.Run start ts s) (i : ι) :
    (e.machine i).Run (start.members i) (view i ts) (s.members i) := by
  induction hrun with
  | start => exact .start
  | turn _ hstep ih =>
    rw [view_append]
    rcases view_turn hstep i with ⟨hnil, hsame, _⟩ | ⟨a, hlocal, hview⟩
    · rw [hnil, List.append_nil, hsame]
      exact ih
    · rw [hview]
      exact ih.turn hlocal

/-- The events of one member are the events of its own history. -/
theorem events_view {start s : Snapshot State Medium}
    {ts : List (EnsembleTurn State Action Event Medium Drift)}
    (hrun : e.toMachine.Run start ts s) (i : ι) :
    Machine.events (view i ts) = (Machine.events ts).filterMap (eventOf i) := by
  induction hrun with
  | start => rfl
  | turn _ hstep ih =>
    rw [view_append, Machine.events_append, Machine.events_append, List.filterMap_append, ih,
      Machine.events_singleton]
    rcases view_turn hstep i with ⟨hnil, _, hes⟩ | ⟨a, _, hview⟩
    · rw [hnil, hes, Machine.events_nil]
    · rw [hview, Machine.events_singleton]

theorem mem_events_view {start s : Snapshot State Medium}
    {ts : List (EnsembleTurn State Action Event Medium Drift)}
    (hrun : e.toMachine.Run start ts s) {i : ι} {x : Event i} :
    x ∈ Machine.events (view i ts) ↔ ⟨i, x⟩ ∈ Machine.events ts := by
  simp [events_view hrun i, eventOf_eq_some]

end Ensemble
end Framework
