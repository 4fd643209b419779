import Mathlib.Data.List.Forall2
import Mathlib.Data.List.Induction

/-!
# Machines driven by an environment

A machine takes one action at a time and emits the events that an observer sees.
Its steps are partial functions, so a run is fixed by the actions the environment
chose; every interleaving and every outcome of an outside call is one such choice.

A run keeps its turns. A property of histories is proved once for the empty run and
once for a turn, and every earlier turn of a run can be recovered with the state it
started from.
-/

namespace Framework

universe u v w

/-- A partial step function with observable events. -/
structure Machine (State : Type u) (Action : Type v) (Event : Type w) where
  step : State → Action → Option (State × List Event)

/-- One completed step: the state it started from, what it did and where it led. -/
structure Turn (State : Type u) (Action : Type v) (Event : Type w) where
  before : State
  action : Action
  emitted : List Event
  after : State
  deriving DecidableEq, Repr

namespace Machine

variable {State : Type u} {Action : Type v} {Event : Type w}

/-- The finite runs of a machine from one start state, in chronological order. -/
inductive Run (m : Machine State Action Event) (start : State) :
    List (Turn State Action Event) → State → Prop where
  | start : Run m start [] start
  | turn {ts : List (Turn State Action Event)} {s s' : State} {a : Action} {es : List Event} :
      Run m start ts s → m.step s a = some (s', es) → Run m start (ts ++ [⟨s, a, es, s'⟩]) s'

/-- Everything emitted during a run. -/
def events (ts : List (Turn State Action Event)) : List Event :=
  ts.flatMap Turn.emitted

@[simp] theorem events_nil : events ([] : List (Turn State Action Event)) = [] := rfl

@[simp] theorem events_append (ts us : List (Turn State Action Event)) :
    events (ts ++ us) = events ts ++ events us := by
  simp [events]

@[simp] theorem events_singleton (t : Turn State Action Event) : events [t] = t.emitted := by
  simp [events]

@[simp] theorem events_cons (t : Turn State Action Event) (ts : List (Turn State Action Event)) :
    events (t :: ts) = t.emitted ++ events ts := by
  simp [events]

theorem mem_events {ts : List (Turn State Action Event)} {e : Event} :
    e ∈ events ts ↔ ∃ t ∈ ts, e ∈ t.emitted := List.mem_flatMap

theorem mem_events_earlier {ts us : List (Turn State Action Event)} {e : Event}
    (he : e ∈ events ts) : e ∈ events (ts ++ us) := by
  rw [events_append]
  exact List.mem_append_left _ he

theorem mem_events_concat {ts : List (Turn State Action Event)} {t : Turn State Action Event}
    {e : Event} : e ∈ events (ts ++ [t]) ↔ e ∈ events ts ∨ e ∈ t.emitted := by
  rw [events_append, events_singleton, List.mem_append]

theorem mem_events_last {ts : List (Turn State Action Event)} {t : Turn State Action Event}
    {e : Event} (he : e ∈ t.emitted) : e ∈ events (ts ++ [t]) :=
  mem_events_concat.mpr (.inr he)

variable {m : Machine State Action Event} {start : State}

/-- What holds at the start and is kept by every turn holds after every run. -/
theorem Run.invariant {I : List (Turn State Action Event) → State → Prop}
    (hstart : I [] start)
    (hturn : ∀ ts s a s' es, m.Run start ts s → I ts s → m.step s a = some (s', es) →
      I (ts ++ [⟨s, a, es, s'⟩]) s')
    {ts : List (Turn State Action Event)} {s : State} (hrun : m.Run start ts s) : I ts s := by
  induction hrun with
  | start => exact hstart
  | turn hrun hstep ih => exact hturn _ _ _ _ _ hrun ih hstep

/-- What holds at the start and is kept by every turn of a kind holds after every run that has
turns of this kind only. -/
theorem Run.invariant_of {P : Turn State Action Event → Prop}
    {I : List (Turn State Action Event) → State → Prop} (hstart : I [] start)
    (hturn : ∀ ts s a s' es, m.Run start ts s → I ts s → m.step s a = some (s', es) →
      P ⟨s, a, es, s'⟩ → I (ts ++ [⟨s, a, es, s'⟩]) s')
    {ts : List (Turn State Action Event)} {s : State} (hrun : m.Run start ts s)
    (hall : ∀ t ∈ ts, P t) : I ts s := by
  induction hrun with
  | start => exact hstart
  | turn hrun hstep ih =>
    have hbefore := ih fun t ht => hall t (List.mem_append_left _ ht)
    have hlast := hall _ List.mem_concat_self
    exact hturn _ _ _ _ _ hrun hbefore hstep hlast

/-- What every turn emits of a kind under an invariant is emitted by every run. -/
theorem Run.emits {α : Type*} {J : State → Prop} {f : α → Event} {Q : α → Prop} (hstart : J start)
    (hturn : ∀ ts s a s' es, m.Run start ts s → J s → m.step s a = some (s', es) →
      J s' ∧ ∀ x, f x ∈ es → Q x)
    {ts : List (Turn State Action Event)} {s : State} (hrun : m.Run start ts s) :
    J s ∧ ∀ x, f x ∈ events ts → Q x := by
  induction hrun with
  | start => exact ⟨hstart, by simp⟩
  | turn hrun hstep ih =>
    obtain ⟨hbefore, hearlier⟩ := ih
    obtain ⟨hafter, hlast⟩ := hturn _ _ _ _ _ hrun hbefore hstep
    refine ⟨hafter, ?_⟩
    intro x hx
    rcases mem_events_concat.mp hx with hx | hx
    · exact hearlier x hx
    · exact hlast x hx

/-- Cutting a run anywhere leaves a run. -/
theorem Run.cut {ts us : List (Turn State Action Event)} {s : State}
    (hrun : m.Run start (ts ++ us) s) : ∃ s', m.Run start ts s' := by
  induction us using List.reverseRecOn generalizing s with
  | nil => exact ⟨s, by simpa using hrun⟩
  | append_singleton us t ih =>
    rw [← List.append_assoc] at hrun
    generalize htrace : ts ++ us ++ [t] = trace at hrun
    cases hrun with
    | start => simp at htrace
    | turn hrun _ =>
      obtain ⟨htail, _⟩ := List.append_inj' htrace rfl
      exact ih (htail ▸ hrun)

/-- The last turn of a run starts where the turns before it ended. -/
theorem Run.last {ts : List (Turn State Action Event)} {t : Turn State Action Event} {s : State}
    (hrun : m.Run start (ts ++ [t]) s) :
    m.Run start ts t.before ∧ m.step t.before t.action = some (t.after, t.emitted) ∧
      s = t.after := by
  generalize htrace : ts ++ [t] = trace at hrun
  cases hrun with
  | start => simp at htrace
  | turn hrun hstep =>
    obtain ⟨htail, hlast⟩ := List.append_inj' htrace rfl
    obtain rfl := List.singleton_inj.mp hlast
    exact ⟨htail ▸ hrun, hstep, rfl⟩

/-- A turn inside a run starts where the turns before it ended. -/
theorem Run.middle {ts us : List (Turn State Action Event)} {t : Turn State Action Event}
    {s : State} (hrun : m.Run start (ts ++ t :: us) s) :
    m.Run start ts t.before ∧ m.step t.before t.action = some (t.after, t.emitted) ∧
      m.Run start (ts ++ [t]) t.after := by
  rw [← List.singleton_append, ← List.append_assoc] at hrun
  obtain ⟨s', hhead⟩ := hrun.cut
  obtain ⟨hbefore, hstep, rfl⟩ := hhead.last
  exact ⟨hbefore, hstep, hhead⟩

/-- Every turn of a run is a step of the machine. -/
theorem Run.step_of_mem {ts : List (Turn State Action Event)} {t : Turn State Action Event}
    {s : State} (hrun : m.Run start ts s) (ht : t ∈ ts) :
    m.step t.before t.action = some (t.after, t.emitted) := by
  obtain ⟨before, rest, rfl⟩ := List.append_of_mem ht
  exact hrun.middle.2.1

/-- Runs compose: a run from the end of a run extends it. -/
theorem Run.append {middle s : State} {ts us : List (Turn State Action Event)}
    (hfirst : m.Run start ts middle) (hsecond : m.Run middle us s) :
    m.Run start (ts ++ us) s := by
  induction hsecond with
  | start => simpa using hfirst
  | turn _ hstep ih =>
    rw [← List.append_assoc]
    exact ih.turn hstep

/-- A relation between states that every turn respects holds along every run. -/
theorem Run.monotone {R : State → State → Prop} (hrefl : ∀ s, R s s)
    (htrans : ∀ {s₁ s₂ s₃}, R s₁ s₂ → R s₂ s₃ → R s₁ s₃)
    (hstep : ∀ s a s' es, m.step s a = some (s', es) → R s s')
    {ts : List (Turn State Action Event)} {s : State} (hrun : m.Run start ts s) : R start s :=
  hrun.invariant (I := fun _ s => R start s) (hrefl start)
    fun _ _ _ _ _ _ hi hs => htrans hi (hstep _ _ _ _ hs)

/-- Where every turn of one machine has its turn in another one, every run has its run. -/
theorem Run.simulate {State' : Type*} {Action' : Type*} {Event' : Type*}
    {m' : Machine State' Action' Event'} {start' : State'} {R : State → State' → Prop}
    {T : Turn State Action Event → Turn State' Action' Event' → Prop} (hstart : R start start')
    (hturn : ∀ ts s t a s' es, m.Run start ts s → R s t → m.step s a = some (s', es) →
      ∃ a' t' es', m'.step t a' = some (t', es') ∧ R s' t' ∧ T ⟨s, a, es, s'⟩ ⟨t, a', es', t'⟩)
    {ts : List (Turn State Action Event)} {s : State} (hrun : m.Run start ts s) :
    ∃ ts' t, m'.Run start' ts' t ∧ R s t ∧ List.Forall₂ T ts ts' := by
  induction hrun with
  | start => exact ⟨[], start', .start, hstart, .nil⟩
  | turn hrun hstep ih =>
    obtain ⟨ts', t, hrun', hrel, hturns⟩ := ih
    obtain ⟨a', t', es', hstep', hrel', hlast⟩ := hturn _ _ _ _ _ _ hrun hrel hstep
    exact ⟨_, t', hrun'.turn hstep', hrel',
      List.rel_append hturns (.cons hlast .nil)⟩

/-- A turn and everything after it form a run from the state the turn started in. -/
theorem Run.suffix {ts us : List (Turn State Action Event)} {s : State}
    (hrun : m.Run start (ts ++ us) s) : ∃ middle, m.Run start ts middle ∧ m.Run middle us s := by
  induction us using List.reverseRecOn generalizing s with
  | nil => exact ⟨s, by simpa using hrun, .start⟩
  | append_singleton us t ih =>
    rw [← List.append_assoc] at hrun
    obtain ⟨hhead, hstep, rfl⟩ := hrun.last
    obtain ⟨middle, hfirst, hsecond⟩ := ih hhead
    exact ⟨middle, hfirst, hsecond.turn hstep⟩

/-- What follows a turn inside a run is a run from the state the turn led to. -/
theorem Run.rest {ts us : List (Turn State Action Event)} {t : Turn State Action Event}
    {s : State} (hrun : m.Run start (ts ++ t :: us) s) : m.Run t.after us s := by
  rw [← List.singleton_append, ← List.append_assoc] at hrun
  obtain ⟨middle, hfirst, hrest⟩ := hrun.suffix
  obtain ⟨_, _, rfl⟩ := hfirst.last
  exact hrest

/-- A run starts where its first turn does. -/
theorem Run.first {us : List (Turn State Action Event)} {t : Turn State Action Event} {s : State}
    (hrun : m.Run start (t :: us) s) : start = t.before := by
  rw [← List.nil_append (t :: us)] at hrun
  have hbefore := hrun.middle.1
  generalize hnil : ([] : List (Turn State Action Event)) = before at hbefore
  cases hbefore with
  | start => rfl
  | turn => simp at hnil

theorem Run.resume {ts us : List (Turn State Action Event)} {t : Turn State Action Event}
    {s : State} (hrun : m.Run start (ts ++ t :: us) s) : m.Run t.before (t :: us) s :=
  (Run.start.turn hrun.middle.2.1).append hrun.rest

/-- Run a list of actions, keeping the turns. -/
def exec (m : Machine State Action Event) :
    State → List Action → Option (List (Turn State Action Event) × State)
  | s, [] => some ([], s)
  | s, a :: as =>
    match m.step s a with
    | none => none
    | some (s', es) => (m.exec s' as).map fun rest => (⟨s, a, es, s'⟩ :: rest.1, rest.2)

/-- A list of actions that can be run takes its first step. -/
theorem exec_cons {a : Action} {as : List Action} {ts : List (Turn State Action Event)}
    {s : State} (hexec : m.exec start (a :: as) = some (ts, s)) :
    ∃ s' es us, m.step start a = some (s', es) ∧ m.exec s' as = some (us, s) ∧
      ts = ⟨start, a, es, s'⟩ :: us := by
  simp only [exec] at hexec
  split at hexec
  · contradiction
  · rename_i s' es hstep
    obtain ⟨⟨us, s''⟩, hrest, hpair⟩ := Option.map_eq_some_iff.mp hexec
    obtain ⟨rfl, rfl⟩ := Prod.mk.inj hpair
    exact ⟨s', es, us, hstep, hrest, rfl⟩

theorem Run.of_exec {as : List Action} {ts : List (Turn State Action Event)} {s : State}
    (hexec : m.exec start as = some (ts, s)) : m.Run start ts s := by
  induction as generalizing start ts with
  | nil =>
    obtain ⟨rfl, rfl⟩ : [] = ts ∧ start = s := by simpa [exec] using hexec
    exact .start
  | cons a as ih =>
    obtain ⟨s', es, us, hstep, hrest, rfl⟩ := exec_cons hexec
    exact (Run.start.turn hstep).append (ih hrest)

theorem exec_append {as : List Action} {ts : List (Turn State Action Event)} {s s' : State}
    {a : Action} {es : List Event} (hexec : m.exec start as = some (ts, s))
    (hstep : m.step s a = some (s', es)) :
    m.exec start (as ++ [a]) = some (ts ++ [⟨s, a, es, s'⟩], s') := by
  induction as generalizing start ts with
  | nil =>
    obtain ⟨rfl, rfl⟩ : [] = ts ∧ start = s := by simpa [exec] using hexec
    simp [exec, hstep]
  | cons b as ih =>
    obtain ⟨next, fs, us, hfirst, hrest, rfl⟩ := exec_cons hexec
    simp only [List.cons_append, exec, hfirst, ih hrest, Option.map_some]

/-- A run is determined by its actions. -/
theorem Run.exec {ts : List (Turn State Action Event)} {s : State} (hrun : m.Run start ts s) :
    m.exec start (ts.map Turn.action) = some (ts, s) := by
  induction hrun with
  | start => rfl
  | turn _ hstep ih =>
    rw [List.map_append]
    exact exec_append ih hstep

/-- The turns of an executable list of actions. -/
def turnsOf (m : Machine State Action Event) (start : State) (as : List Action) :
    List (Turn State Action Event) :=
  ((m.exec start as).getD ([], start)).1

/-- The state an executable list of actions ends in. -/
def stateAfter (m : Machine State Action Event) (start : State) (as : List Action) : State :=
  ((m.exec start as).getD ([], start)).2

theorem exec_actions {as : List Action} {ts : List (Turn State Action Event)} {s : State}
    (hexec : m.exec start as = some (ts, s)) : ts.map Turn.action = as := by
  induction as generalizing start ts with
  | nil =>
    obtain ⟨rfl, _⟩ : [] = ts ∧ start = s := by simpa [exec] using hexec
    rfl
  | cons a as ih =>
    obtain ⟨s', es, us, _, hrest, rfl⟩ := exec_cons hexec
    simp [ih hrest]

/-- The turns of a list of actions take no other actions. -/
theorem action_mem_of_turnsOf {as : List Action} {t : Turn State Action Event}
    (ht : t ∈ m.turnsOf start as) : t.action ∈ as := by
  cases hexec : m.exec start as with
  | none => simp [turnsOf, hexec] at ht
  | some r =>
    have hactions := exec_actions hexec
    rw [← hactions]
    apply List.mem_map_of_mem
    simpa [turnsOf, hexec] using ht

theorem Run.of_actions {as : List Action} (hexec : (m.exec start as).isSome = true) :
    m.Run start (m.turnsOf start as) (m.stateAfter start as) := by
  obtain ⟨⟨ts, s⟩, hsome⟩ := Option.isSome_iff_exists.mp hexec
  have hrun := Run.of_exec hsome
  simpa [turnsOf, stateAfter, hsome] using hrun

theorem turnsOf_actions {as : List Action} (hexec : (m.exec start as).isSome = true) :
    (m.turnsOf start as).map Turn.action = as := by
  obtain ⟨⟨ts, s⟩, hsome⟩ := Option.isSome_iff_exists.mp hexec
  have hactions := exec_actions hsome
  simpa [turnsOf, hsome] using hactions

end Machine
end Framework
