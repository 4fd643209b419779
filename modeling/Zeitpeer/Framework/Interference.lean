import Zeitpeer.Framework.Ensemble
import Mathlib.Data.List.Forall2

/-!
# Ensembles without some of their members

Some members are watched, and the medium is watched through a view. As long as what the others
do leaves the view alone and the watched members depend on nothing but the view, a run can be
purged of the turns of the others: what is left is a run of the same ensemble in which the
watched members do the same and the view is the same at every turn.
-/

namespace Framework
namespace Ensemble

universe u v w x

variable {ι : Type u} {State Action Event : ι → Type v} {Medium Drift : Type w} {View : Type x}

/-- A move of a watched member, or of the medium by itself. -/
def Move.isKept (kept : ι → Bool) : Move Action Drift → Bool
  | .member i _ => kept i
  | .drift _ => true

def isKept (kept : ι → Bool) (t : EnsembleTurn State Action Event Medium Drift) : Bool :=
  t.action.isKept kept

/-- Two turns that the watched members cannot tell apart. -/
structure Alike (kept : ι → Bool) (view : Medium → View)
    (t u : EnsembleTurn State Action Event Medium Drift) : Prop where
  action : u.action = t.action
  emitted : u.emitted = t.emitted
  members : ∀ i, kept i = true → u.before.members i = t.before.members i
  medium : view u.before.medium = view t.before.medium

/-- The same of two snapshots. -/
structure Matches (kept : ι → Bool) (view : Medium → View) (s s' : Snapshot State Medium) :
    Prop where
  members : ∀ i, kept i = true → s'.members i = s.members i
  medium : view s'.medium = view s.medium

/-- A watched member may take its turn whenever the view is as it was, and another one leaves
the view as it was. -/
def Confined (e : Ensemble ι State Action Event Medium Drift) (kept : ι → Bool)
    (view : Medium → View) (t : EnsembleTurn State Action Event Medium Drift) : Prop :=
  match t.action with
  | .member i a =>
    if kept i then ∀ m, view m = view t.before.medium → e.allows m i a = true
    else view t.after.medium = view t.before.medium
  | .drift _ => True

/-- The view after a turn of a watched member, or of the medium, depends on the view before. -/
structure Respects (e : Ensemble ι State Action Event Medium Drift) (kept : ι → Bool)
    (view : Medium → View) : Prop where
  absorb : ∀ m m' i es, kept i = true → view m = view m' →
    view (e.absorb m i es) = view (e.absorb m' i es)
  drift : ∀ m m' d n, view m = view m' → e.drift m d = some n →
    ∃ n', e.drift m' d = some n' ∧ view n' = view n

variable {e : Ensemble ι State Action Event Medium Drift} {kept : ι → Bool}
  {view : Medium → View}

private theorem Matches.alike {s s' next next' : Snapshot State Medium} (h : Matches kept view s s')
    (m : Move Action Drift) (es : List (Sigma Event)) :
    Alike kept view ⟨s, m, es, next⟩ ⟨s', m, es, next'⟩ := ⟨rfl, rfl, h.members, h.medium⟩

private theorem Alike.isKept {t u : EnsembleTurn State Action Event Medium Drift}
    (h : Alike kept view t u) : Ensemble.isKept kept u = Ensemble.isKept kept t := by
  rw [Ensemble.isKept, Ensemble.isKept, h.action]

theorem isKept_of_alike {ts us : List (EnsembleTurn State Action Event Medium Drift)}
    (h : List.Forall₂ (Alike kept view) ts us) (hts : ∀ t ∈ ts, isKept kept t = true) :
    ∀ u ∈ us, isKept kept u = true := by
  induction h with
  | nil => simp
  | cons halike _ ih =>
    intro u hu
    rcases List.mem_cons.mp hu with rfl | hu
    · exact halike.isKept.trans (hts _ List.mem_cons_self)
    · exact ih (fun t ht => hts t (List.mem_cons_of_mem _ ht)) u hu

theorem actions_of_alike {ts us : List (EnsembleTurn State Action Event Medium Drift)}
    (h : List.Forall₂ (Alike kept view) ts us) : us.map Turn.action = ts.map Turn.action := by
  induction h with
  | nil => rfl
  | cons halike _ ih => rw [List.map_cons, List.map_cons, halike.action, ih]

theorem filter_isKept_actions (ts : List (EnsembleTurn State Action Event Medium Drift)) :
    (ts.filter (isKept kept)).map Turn.action = (ts.map Turn.action).filter (Move.isKept kept) := by
  rw [List.filter_map]
  rfl

variable [DecidableEq ι]

section Turns

variable {s next : Snapshot State Medium} {m : Move Action Drift} {es : List (Sigma Event)}

private theorem Matches.skip (hstep : e.toMachine.step s m = some (next, es))
    (hconfined : Confined e kept view ⟨s, m, es, next⟩)
    (hother : isKept kept (⟨s, m, es, next⟩ : EnsembleTurn _ _ _ _ _) = false)
    {s' : Snapshot State Medium} (h : Matches kept view s s') : Matches kept view next s' := by
  cases m with
  | drift d => contradiction
  | member i a =>
    have hnot : kept i = false := hother
    have hview : view next.medium = view s.medium := by
      simpa [Confined, hnot] using hconfined
    obtain ⟨n, fs, _, _, rfl, _⟩ := step_member hstep
    refine ⟨?_, h.medium.trans hview.symm⟩
    intro j hj
    have hne : j ≠ i := by
      rintro rfl
      rw [hnot] at hj
      contradiction
    rw [h.members j hj]
    exact (Function.update_of_ne hne _ _).symm

private theorem Matches.follow (hrespects : Respects e kept view)
    (hstep : e.toMachine.step s m = some (next, es))
    (hconfined : Confined e kept view ⟨s, m, es, next⟩)
    (hkept : isKept kept (⟨s, m, es, next⟩ : EnsembleTurn _ _ _ _ _) = true)
    {s' : Snapshot State Medium} (h : Matches kept view s s') :
    ∃ next', e.toMachine.step s' m = some (next', es) ∧ Matches kept view next next' := by
  cases m with
  | drift d =>
    obtain ⟨n, hdrift, rfl, rfl⟩ := step_drift hstep
    obtain ⟨n', hdrift', hview⟩ := hrespects.drift _ _ d n h.medium.symm hdrift
    refine ⟨{ s' with medium := n' }, ?_, h.members, hview⟩
    simp only [toMachine, step, hdrift', Option.map_some]
  | member i a =>
    have hin : kept i = true := hkept
    have hallow : ∀ m, view m = view s.medium → e.allows m i a = true := by
      simpa [Confined, hin] using hconfined
    obtain ⟨n, fs, _, hlocal, rfl, rfl⟩ := step_member hstep
    refine ⟨⟨Function.update s'.members i n, e.absorb s'.medium i fs⟩, ?_, ?_,
      hrespects.absorb _ _ i fs hin h.medium⟩
    · simp only [toMachine, step, hallow s'.medium h.medium, if_true, h.members i hin, hlocal,
        Option.map_some]
    · intro j hj
      by_cases hsame : j = i
      · subst hsame
        simp
      · simp only [Function.update_of_ne hsame, h.members j hj]

end Turns

/-- Purging a run of the others leaves a run. -/
theorem purge (hrespects : Respects e kept view) {start s : Snapshot State Medium}
    {ts : List (EnsembleTurn State Action Event Medium Drift)}
    (hrun : e.toMachine.Run start ts s) (hconfined : ∀ t ∈ ts, Confined e kept view t) :
    ∃ us s', e.toMachine.Run start us s' ∧
      List.Forall₂ (Alike kept view) (ts.filter (isKept kept)) us ∧ Matches kept view s s' := by
  induction hrun with
  | start => exact ⟨[], start, .start, .nil, fun _ _ => rfl, rfl⟩
  | @turn ts s next m es hrun hstep ih =>
    obtain ⟨us, s', hus, halike, hmatches⟩ :=
      ih fun t ht => hconfined t (List.mem_append_left _ ht)
    have hturn := hconfined ⟨s, m, es, next⟩
      List.mem_concat_self
    cases hkept : isKept kept (⟨s, m, es, next⟩ : EnsembleTurn State Action Event Medium Drift) with
    | false =>
      refine ⟨us, s', hus, ?_, hmatches.skip hstep hturn hkept⟩
      rw [List.filter_append, List.filter_cons_of_neg (by simp [hkept]), List.filter_nil,
        List.append_nil]
      exact halike
    | true =>
      obtain ⟨s'', hstep', hafter⟩ := hmatches.follow hrespects hstep hturn hkept
      refine ⟨us ++ [⟨s', m, es, s''⟩], s'', hus.turn hstep', ?_, hafter⟩
      rw [List.filter_append, List.filter_cons_of_pos hkept, List.filter_nil]
      exact List.rel_append halike (.cons (hmatches.alike m es) .nil)

end Ensemble
end Framework
