import Zeitpeer.Framework.Ensemble

/-!
# Activities that end

A machine may do several things at once, each by actions of its own. A variant of one of them is
a bound on what it still has to do: a turn of its own takes something off, and turns of others add
nothing. If it can moreover always take a turn, it comes to its end whatever the others do.
-/

namespace Framework

universe u v w

/-- One of the things that a machine does: the actions that belong to it, the states in which it
is not under way, and what it may cost to begin it. -/
structure Activity (State : Type u) (Action : Type v) where
  own : Action → Bool
  settled : State → Bool
  cost : State → Nat

namespace Activity

variable {State : Type u} {Action : Type v} {Event : Type w}

/-- What an activity has left to do, where a medium says which actions are allowed. -/
structure Variant {Medium : Type*} (c : Activity State Action) (m : Machine State Action Event)
    (start : State) (allows : Medium → Action → Bool) where
  left : State → Nat
  begins : ∀ {s a s' es}, m.step s a = some (s', es) → c.own a = true → c.settled s = true →
    left s' ≤ c.cost s
  spends : ∀ {s a s' es}, m.step s a = some (s', es) → c.own a = true → c.settled s = false →
    left s' < left s
  keeps : ∀ {s a s' es}, m.step s a = some (s', es) → c.own a = false → left s' ≤ left s
  moves : ∀ {ts s}, m.Run start ts s → c.settled s = false → ∀ medium,
    ∃ a, c.own a = true ∧ allows medium a = true ∧ (m.step s a).isSome = true

section Runs

variable {Medium : Type*} {c : Activity State Action} {m : Machine State Action Event}
  {start : State} {allows : Medium → Action → Bool}

private theorem Variant.countP_le (h : Variant c m start allows) {s s' : State}
    {us : List (Turn State Action Event)} (hrun : m.Run s us s')
    (hbusy : ∀ u ∈ us, c.own u.action = true → c.settled u.before = false) :
    us.countP (fun u => c.own u.action) + h.left s' ≤ h.left s := by
  induction hrun with
  | start => simp
  | @turn us s s' a es _ hstep ih =>
    have hle := ih fun u hu => hbusy u (List.mem_append_left _ hu)
    rw [List.countP_append, List.countP_singleton]
    cases hown : c.own a with
    | false =>
      have hkeep := h.keeps hstep hown
      simp only [Bool.false_eq_true, if_false]
      omega
    | true =>
      have hlast : (⟨s, a, es, s'⟩ : Turn State Action Event) ∈ us ++ [⟨s, a, es, s'⟩] := by simp
      have hspend := h.spends hstep hown (hbusy _ hlast hown)
      simp only [if_true]
      omega

/-- An activity takes no more turns than it may cost. -/
theorem Variant.countP_le_cost (h : Variant c m start allows) {s : State}
    {ts us : List (Turn State Action Event)} {t : Turn State Action Event}
    (hrun : m.Run start (ts ++ t :: us) s) (hown : c.own t.action = true)
    (hsettled : c.settled t.before = true)
    (hbusy : ∀ u ∈ us, c.own u.action = true → c.settled u.before = false) :
    us.countP (fun u => c.own u.action) ≤ c.cost t.before := by
  have hbegins := h.begins hrun.middle.2.1 hown hsettled
  have hle := h.countP_le hrun.rest hbusy
  omega

end Runs

/-- Alone, an activity can always come to its end. -/
theorem Variant.completes {c : Activity State Action} {m : Machine State Action Event}
    {start s : State} {allows : Unit → Action → Bool} (h : Variant c m start allows)
    {ts : List (Turn State Action Event)} (hrun : m.Run start ts s) :
    ∃ us s', m.Run s us s' ∧ (∀ u ∈ us, c.own u.action = true) ∧ c.settled s' = true := by
  generalize hleft : h.left s = n
  induction n using Nat.strongRecOn generalizing ts s with
  | ind n ih =>
    cases hsettled : c.settled s with
    | true => exact ⟨[], s, .start, by simp, hsettled⟩
    | false =>
      obtain ⟨a, hown, _, hsome⟩ := h.moves hrun hsettled ()
      obtain ⟨⟨s₁, es⟩, hstep⟩ := Option.isSome_iff_exists.mp hsome
      have hless : h.left s₁ < n := hleft ▸ h.spends hstep hown hsettled
      obtain ⟨us, s', hmore, hall, hend⟩ := ih _ hless (hrun.turn hstep) rfl
      refine ⟨⟨s, a, es, s₁⟩ :: us, s', ?_, ?_, hend⟩
      · exact (Machine.Run.turn .start hstep).append hmore
      · exact List.forall_mem_cons.mpr ⟨hown, hall⟩

section Members

open Ensemble

variable {ι : Type u} {State Action Event : ι → Type v} {Medium Drift : Type w}

/-- The activity of one member in the ensemble. -/
def member [DecidableEq ι] (Medium Drift : Type w) (i : ι) (c : Activity (State i) (Action i)) :
    Activity (Snapshot State Medium) (Move Action Drift) where
  own
    | .member j a => if h : j = i then c.own (h ▸ a) else false
    | .drift _ => false
  settled s := c.settled (s.members i)
  cost s := c.cost (s.members i)

variable [DecidableEq ι] {i : ι} {c : Activity (State i) (Action i)}

private theorem own_member {a : Move Action Drift} :
    (c.member Medium Drift i).own a = true ↔ ∃ b, a = .member i b ∧ c.own b = true := by
  cases a with
  | drift d => simp [member]
  | member j a =>
    by_cases h : j = i
    · subst h
      simp [member]
    · have hne : ∀ b, Move.member j a ≠ (.member i b : Move Action Drift) := by
        rintro b ⟨⟩
        exact h rfl
      simp [member, h, hne]

/-- A variant for every medium is a variant in the ensemble. -/
def Variant.ensemble {e : Ensemble ι State Action Event Medium Drift}
    {start : Snapshot State Medium}
    (h : Variant c (e.machine i) (start.members i) fun medium => e.allows medium i) :
    Variant (c.member Medium Drift i) e.toMachine start fun (_ : Unit) _ => true where
  left s := h.left (s.members i)
  begins {s a s' es} hstep hown hsettled := by
    obtain ⟨b, rfl, hlocalOwn⟩ := own_member.mp hown
    obtain ⟨n, fs, _, hlocal, rfl, _⟩ := step_member hstep
    simp only [Function.update_self]
    exact h.begins hlocal hlocalOwn hsettled
  spends {s a s' es} hstep hown hsettled := by
    obtain ⟨b, rfl, hlocalOwn⟩ := own_member.mp hown
    obtain ⟨n, fs, _, hlocal, rfl, _⟩ := step_member hstep
    simp only [Function.update_self]
    exact h.spends hlocal hlocalOwn hsettled
  keeps {s a s' es} hstep hown := by
    rcases member_turn hstep i with ⟨_, hsame, _⟩ | ⟨b, fs, rfl, _, hlocal, _, _⟩
    · exact Nat.le_of_eq (congrArg h.left hsame)
    · apply h.keeps hlocal
      rw [← Bool.not_eq_true]
      exact fun hb => absurd (own_member.mpr ⟨b, rfl, hb⟩) (by rw [hown]; decide)
  moves {ts s} hrun hsettled _ := by
    obtain ⟨a, hown, hallow, hsome⟩ := h.moves (run_view hrun i) hsettled s.medium
    obtain ⟨⟨n, fs⟩, hlocal⟩ := Option.isSome_iff_exists.mp hsome
    refine ⟨.member i a, own_member.mpr ⟨a, rfl, hown⟩, rfl, ?_⟩
    exact Option.isSome_of_mem (member_step hallow hlocal)

end Members

end Activity

end Framework
