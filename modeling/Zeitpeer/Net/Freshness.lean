import Zeitpeer.Framework.Ghost
import Zeitpeer.Net.Discipline
import Zeitpeer.Net.Writers
import Zeitpeer.Store.Recent

/-!
# How fresh the fused readings are

A reading carries the stamp of the clock that timed it, and the window of an iteration is
measured on the system clock. A history variable keeps the real time at which each reading was
stored, and the difference of the two clocks is what a read adds to the window: it finds the
readings up to this age. From this follows when an iteration uses the readings stored last, as
fresh as they should be, in every run and whatever the clocks show.
-/

namespace Zeitpeer

open Framework Machine Ensemble

variable {parse : String → UInt16 → Option SocketAddr} {cfg : Config}

/-- Real time in nanoseconds, and the readings stored so far with their times. -/
structure Timeline where
  now : Nat
  stored : SeriesKey → List (Nat × Entry)
  times : ∀ key, (stored key).Pairwise fun x y => x.1 ≤ y.1
  past : ∀ key, ∀ x ∈ stored key, x.1 ≤ now

def Timeline.elapse (g : Timeline) (elapsed : Nat) : Timeline :=
  { g with
    now := g.now + elapsed
    past := fun key x hx => (g.past key x hx).trans (Nat.le_add_right _ _) }

def Timeline.add (g : Timeline) (w : TsAdd) : Timeline where
  now := g.now
  stored := Function.update g.stored w.key (g.stored w.key ++ [(g.now, w.entry)])
  times := by
    intro key
    by_cases hkey : key = w.key
    · subst hkey
      rw [Function.update_self, List.pairwise_append]
      refine ⟨g.times w.key, List.pairwise_singleton _ _, ?_⟩
      intro x hx y hy
      rw [List.mem_singleton.mp hy]
      exact g.past w.key x hx
    · rw [Function.update_of_ne hkey]
      exact g.times key
  past := by
    intro key x hx
    by_cases hkey : key = w.key
    · subst hkey
      rw [Function.update_self] at hx
      rcases List.mem_append.mp hx with hold | hnew
      · exact g.past w.key x hold
      · rw [List.mem_singleton.mp hnew]
    · rw [Function.update_of_ne hkey] at hx
      exact g.past key x hx

/-- What is lost does not count as stored. -/
def Timeline.lose (g : Timeline) (lost : SeriesKey) (e : Entry) : Timeline where
  now := g.now
  stored := Function.update g.stored lost ((g.stored lost).filter fun x => x.2 ≠ e)
  times := by
    intro key
    by_cases hkey : key = lost
    · subst hkey
      rw [Function.update_self]
      exact (g.times key).filter _
    · rw [Function.update_of_ne hkey]
      exact g.times key
  past := by
    intro key x hx
    by_cases hkey : key = lost
    · subst hkey
      rw [Function.update_self] at hx
      exact g.past key x (List.mem_of_mem_filter hx)
    · rw [Function.update_of_ne hkey] at hx
      exact g.past key x hx

def recordTime (t : DaemonTurn cfg) (elapsed : Nat) (g : Timeline) : Timeline :=
  match t.action with
  | .member _ _ => (storedBy t.emitted).foldl Timeline.add (g.elapse elapsed)
  | .drift (.write w) => (g.elapse elapsed).add w
  | .drift (.lose key e) => (g.elapse elapsed).lose key e

/-- The daemon in real time: every turn comes with the time that has passed before it. -/
def timedDaemon (parse : String → UInt16 → Option SocketAddr) (cfg : Config) :
    Machine (DaemonState cfg × Timeline)
      (Move (Task.Action (n := cfg.ntpSources.length)) StoreDrift × Nat)
      (Sigma (Task.Event (n := cfg.ntpSources.length))) :=
  (daemon parse cfg).toMachine.annotate ⟨fun _ _ => true, recordTime⟩

abbrev TimedTurn (cfg : Config) :=
  Turn (DaemonState cfg × Timeline)
    (Move (Task.Action (n := cfg.ntpSources.length)) StoreDrift × Nat)
    (Sigma (Task.Event (n := cfg.ntpSources.length)))

/-- The window in real time. -/
def realWindow (cfg : Config) : Nat := cfg.sampling.windowSec.toNat * 1000000000

/-- How long ago a reading was stored. -/
def Timeline.age (g : Timeline) (x : Nat × Entry) : Int := g.now - x.1

/-- The readings stored in the last window before the timeline's time. -/
def Timeline.recent (g : Timeline) (cfg : Config) (key : SeriesKey) : List (Nat × Entry) :=
  (g.stored key).filter fun x => g.age x ≤ realWindow cfg

/-- What there is when the turn is taken. -/
def moment (t : TimedTurn cfg) : Timeline := t.before.2.elapse t.action.2

/-- The source that was to be read is left out of the iteration. -/
def PassedOver (t : TimedTurn cfg) : Prop :=
  ∃ since src todo samples,
    (t.before.1.members .fusion).task = .collecting since (src :: todo) samples ∧
    (t.after.1.members .fusion).task = .collecting since todo samples

/-- The readings are the ones stored last, all of them in the window. -/
def LastStored (cfg : Config) (g : Timeline) (key : SeriesKey) (reply : List Entry) : Prop :=
  ∃ older used, g.stored key = older ++ used ∧ reply = used.map Prod.snd ∧
    ∀ x ∈ used, g.age x ≤ realWindow cfg

/-- The readings that are used are fresh, and a source with enough readings stored in the window
is not passed over. -/
structure FreshRead (t : TimedTurn cfg) (key : SeriesKey) (reply : List Entry) : Prop where
  newest : ¬ PassedOver t → LastStored cfg (moment t) key reply
  admitted : readLimit cfg ≤ ((moment t).recent cfg key).length → ¬ PassedOver t

/-- How far the clock that stamped a reading was ahead of real time when the reading was stored. -/
def stampLead (x : Nat × Entry) : Int := x.2.score - x.1

/-- How far the clock that the bound of a read stems from is ahead of real time at the read. -/
def Timeline.boundLead (g : Timeline) (cfg : Config) (since : UInt64) : Int :=
  roundToF64 since.toNat + realWindow cfg - g.now

/-- How far the one clock is ahead of the other, for a reading. -/
def Timeline.difference (g : Timeline) (cfg : Config) (since : UInt64) (x : Nat × Entry) : Int :=
  stampLead x - g.boundLead cfg since

private theorem Timeline.age_le_iff {g : Timeline} {since : UInt64} {x : Nat × Entry} :
    g.age x ≤ realWindow cfg + g.difference cfg since x ↔ roundToF64 since.toNat ≤ x.2.score := by
  simp only [age, difference, stampLead, boundLead]
  omega

/-- The readings stored so far that are not older than the window and the difference. -/
def Timeline.seen (g : Timeline) (cfg : Config) (key : SeriesKey) (since : UInt64) :
    List (Nat × Entry) :=
  (g.stored key).filter fun x => g.age x ≤ realWindow cfg + g.difference cfg since x

/-- A read puts these readings last: they are still in the series, the clock that stamped them is
not so far behind that they are out of the window, their stamps rise, and the stamps of all
others in the window are below. -/
structure OnTop (cfg : Config) (g : Timeline) (entries : List Entry) (since : UInt64)
    (used : List (Nat × Entry)) : Prop where
  kept : ∀ x ∈ used, x.2 ∈ entries
  seen : ∀ x ∈ used, g.age x ≤ realWindow cfg + g.difference cfg since x
  rising : Rising Prod.snd used
  others : ∀ e ∈ (eligible entries since).diff (used.map Prod.snd), ∀ x ∈ used,
    e.score < x.2.score

/-- The stamps agree with the times of storing. Where enough readings were stored in the window,
the last of them are on top, and elsewhere too few have stamps in the window; of an admitted
source as many as are taken were stored in the window and are on top. -/
def ClocksAgree (cfg : Config) (g : Timeline) (task : FusionTask) (entries : List Entry)
    (key : SeriesKey) (since : UInt64) : Prop :=
  match task with
  | .collecting _ _ _ =>
    if readLimit cfg ≤ (g.recent cfg key).length then
      OnTop cfg g entries since ((g.stored key).rtake (readLimit cfg))
    else (eligible entries since).length < readLimit cfg
  | _ =>
    let count := min (readLimit cfg) (eligible entries since).length
    count ≤ (g.recent cfg key).length ∧ OnTop cfg g entries since ((g.stored key).rtake count)

/-- What a read finds are the readings stored last, and their stamps rise. -/
structure StoredInStep (cfg : Config) (g : Timeline) (entries : List Entry) (key : SeriesKey)
    (since : UInt64) : Prop where
  found : eligible entries since = (g.seen cfg key since).map Prod.snd
  last : g.seen cfg key since <:+ g.stored key
  rising : Rising Prod.snd (g.seen cfg key since)

/-- The difference of the clocks does not matter at the ages of the last readings: they are all in
the window exactly if they are all in the window and the difference, and of an admitted source
none is in between. -/
def AgesAgree (cfg : Config) (g : Timeline) (task : FusionTask) (key : SeriesKey)
    (since : UInt64) : Prop :=
  let last := (g.stored key).rtake (readLimit cfg)
  match task with
  | .collecting _ _ _ => readLimit cfg ≤ (g.stored key).length →
      ((∀ x ∈ last, g.age x ≤ realWindow cfg) ↔
        ∀ x ∈ last, g.age x ≤ realWindow cfg + g.difference cfg since x)
  | _ => ∀ x ∈ last, g.age x ≤ realWindow cfg + g.difference cfg since x →
      g.age x ≤ realWindow cfg

private theorem recent_suffix (cfg : Config) (g : Timeline) (key : SeriesKey) :
    g.recent cfg key <:+ g.stored key := by
  apply filter_suffix (g.times key)
  intro x y hxy hx
  have hin := of_decide_eq_true hx
  apply decide_eq_true
  rw [Timeline.age] at hin ⊢
  omega

private theorem le_recent_iff {g : Timeline} {key : SeriesKey} {n : Nat} :
    n ≤ (g.recent cfg key).length ↔
      n ≤ (g.stored key).length ∧ ∀ x ∈ (g.stored key).rtake n, g.age x ≤ realWindow cfg := by
  rw [Timeline.recent, le_length_filter_iff (recent_suffix cfg g key)]
  simp

private theorem lastStored_iff {g : Timeline} {key : SeriesKey} {reply : List Entry} :
    LastStored cfg g key reply ↔ reply.length ≤ (g.recent cfg key).length ∧
      reply = ((g.stored key).rtake reply.length).map Prod.snd := by
  rw [le_recent_iff]
  constructor
  · rintro ⟨older, used, hsplit, rfl, hin⟩
    have hused : used = (g.stored key).rtake (used.map Prod.snd).length := by
      rw [List.length_map]
      exact eq_rtake_of_suffix ⟨older, hsplit.symm⟩
    rw [← hused, hsplit, List.length_map, List.length_append]
    exact ⟨⟨Nat.le_add_left _ _, hin⟩, rfl⟩
  · rintro ⟨⟨_, hin⟩, hreply⟩
    obtain ⟨older, hsplit⟩ := rtake_suffix reply.length (g.stored key)
    exact ⟨older, _, hsplit.symm, hreply, hin⟩

/-! ## What a read finds -/

section Read

variable {g : Timeline} {key : SeriesKey} {since : UInt64} {entries reply : List Entry}
  {used : List (Nat × Entry)}

private theorem OnTop.subperm (h : OnTop cfg g entries since used) :
    (used.map Prod.snd).Subperm (eligible entries since) := by
  have hnodup : (used.map Prod.snd).Nodup := by
    apply List.pairwise_map.mpr
    apply List.Pairwise.imp _ h.rising
    intro x y hlt heq
    exact Nat.ne_of_lt hlt (congrArg Entry.score heq)
  apply List.subperm_of_subset hnodup
  intro e he
  obtain ⟨x, hx, rfl⟩ := List.mem_map.mp he
  exact List.mem_filter.mpr
    ⟨h.kept x hx, decide_eq_true (Timeline.age_le_iff.mp (h.seen x hx))⟩

private theorem OnTop.eq_reply (h : OnTop cfg g entries since used)
    (hrecent : IsRecent entries since (readLimit cfg) reply)
    (hlength : used.length = reply.length) : reply = used.map Prod.snd := by
  apply hrecent.eq_of_above
  · rw [List.length_map, hlength]
  · exact h.subperm
  · exact List.pairwise_map.mpr h.rising
  · intro e he x hx
    obtain ⟨y, hy, rfl⟩ := List.mem_map.mp hx
    exact h.others e he y hy

private theorem onTop_of_reply (hrecent : IsRecent entries since (readLimit cfg) reply)
    (hdistinct : Distinct id (eligible entries since)) (hreply : reply = used.map Prod.snd) :
    OnTop cfg g entries since used := by
  obtain ⟨hrising, habove⟩ := hrecent.above hdistinct
  have hfound : ∀ x ∈ used, x.2 ∈ entries ∧ roundToF64 since.toNat ≤ x.2.score := by
    intro x hx
    apply hrecent.mem
    rw [hreply]
    exact List.mem_map_of_mem hx
  rw [hreply] at hrising habove
  constructor
  · exact fun x hx => (hfound x hx).1
  · exact fun x hx => Timeline.age_le_iff.mpr (hfound x hx).2
  · rw [Rising, List.pairwise_map] at hrising
    exact hrising
  · exact fun e he x hx => habove e he x.2 (List.mem_map_of_mem hx)

end Read

private theorem passedOver_iff {t : TimedTurn cfg} {since : UInt64} {src : Source}
    {todo : List Source} {samples : List PeerSample} {reply : List Entry}
    (htask : (t.before.1.members .fusion).task = .collecting since (src :: todo) samples)
    (hafter : (t.after.1.members .fusion).task =
      (t.before.1.members .fusion).task.onReply cfg (some reply)) :
    PassedOver t ↔ reply.length < readLimit cfg := by
  rw [htask] at hafter
  by_cases hfew : reply.length < readLimit cfg
  · simp only [FusionTask.onReply, if_pos hfew] at hafter
    exact ⟨fun _ => hfew, fun _ => ⟨since, src, todo, samples, htask, hafter⟩⟩
  · simp only [FusionTask.onReply, if_neg hfew] at hafter
    refine ⟨?_, fun h => absurd h hfew⟩
    rintro ⟨_, _, _, _, _, hpassed⟩
    rw [hafter] at hpassed
    contradiction

private theorem not_passedOver {t : TimedTurn cfg}
    (htask : ∀ since todo samples,
      (t.before.1.members .fusion).task ≠ .collecting since todo samples) : ¬ PassedOver t := by
  rintro ⟨since, src, todo, samples, hbefore, _⟩
  exact htask since (src :: todo) samples hbefore

section Fresh

variable {t : TimedTurn cfg} {key : SeriesKey} {since : UInt64} {entries reply : List Entry}

private theorem ClocksAgree.fresh (hrecent : IsRecent entries since (readLimit cfg) reply)
    (hreads : (t.before.1.members .fusion).task.reads = some (key, since))
    (hafter : (t.after.1.members .fusion).task =
      (t.before.1.members .fusion).task.onReply cfg (some reply))
    (h : ClocksAgree cfg (moment t) (t.before.1.members .fusion).task entries key since) :
    FreshRead t key reply := by
  have hlength : reply.length = min (readLimit cfg) (eligible entries since).length := by
    rw [hrecent.1, if_neg (Nat.pos_iff_ne_zero.mp (readLimit_pos cfg))]
  cases htask : (t.before.1.members .fusion).task with
  | collecting since' todo samples =>
    cases todo with
    | nil =>
      rw [htask] at hreads
      contradiction
    | cons src todo =>
      have hpassed := passedOver_iff htask hafter
      simp only [htask, ClocksAgree] at h
      split at h
      · rename_i hmany
        have hused : ((moment t).stored key |>.rtake (readLimit cfg)).length = readLimit cfg := by
          rw [length_rtake, Nat.min_eq_left (le_recent_iff.mp hmany).1]
        have hfits := h.subperm.length_le
        rw [List.length_map, hused] at hfits
        rw [Nat.min_eq_left hfits] at hlength
        have hreply := h.eq_reply hrecent (hused.trans hlength.symm)
        have hkept : ¬ PassedOver t := by
          rw [hpassed]
          omega
        refine ⟨fun _ => lastStored_iff.mpr ⟨hlength.trans_le hmany, ?_⟩, fun _ => hkept⟩
        rw [hlength]
        exact hreply
      · rename_i hfew
        have hout : PassedOver t := by
          rw [hpassed]
          omega
        exact ⟨fun hkept => absurd hout hkept, fun hmany => absurd hmany hfew⟩
  | delays
  | jitters =>
    have hkept : ¬ PassedOver t := not_passedOver (by simp [htask])
    simp only [htask, ClocksAgree, ← hlength] at h
    have hused : ((moment t).stored key |>.rtake reply.length).length = reply.length := by
      rw [length_rtake, Nat.min_eq_left (le_recent_iff.mp h.1).1]
    exact ⟨fun _ => lastStored_iff.mpr ⟨h.1, h.2.eq_reply hrecent hused⟩, fun _ => hkept⟩
  | _ =>
    rw [htask] at hreads
    contradiction

private theorem FreshRead.clocksAgree (hrecent : IsRecent entries since (readLimit cfg) reply)
    (hreads : (t.before.1.members .fusion).task.reads = some (key, since))
    (hafter : (t.after.1.members .fusion).task =
      (t.before.1.members .fusion).task.onReply cfg (some reply))
    (hdistinct : Distinct id (eligible entries since)) (h : FreshRead t key reply) :
    ClocksAgree cfg (moment t) (t.before.1.members .fusion).task entries key since := by
  have hlength : reply.length = min (readLimit cfg) (eligible entries since).length := by
    rw [hrecent.1, if_neg (Nat.pos_iff_ne_zero.mp (readLimit_pos cfg))]
  cases htask : (t.before.1.members .fusion).task with
  | collecting since' todo samples =>
    cases todo with
    | nil =>
      rw [htask] at hreads
      contradiction
    | cons src todo =>
      have hpassed := passedOver_iff htask hafter
      simp only [ClocksAgree]
      split
      · rename_i hmany
        have hkept := h.admitted hmany
        obtain ⟨_, hreply⟩ := lastStored_iff.mp (h.newest hkept)
        rw [hpassed] at hkept
        have hfull : reply.length = readLimit cfg := by omega
        rw [hfull] at hreply
        exact onTop_of_reply hrecent hdistinct hreply
      · rename_i hfew
        by_contra hseen
        have hkept : ¬ PassedOver t := by
          rw [hpassed]
          omega
        obtain ⟨hmany, _⟩ := lastStored_iff.mp (h.newest hkept)
        rw [hpassed] at hkept
        omega
  | delays
  | jitters =>
    have hkept : ¬ PassedOver t := not_passedOver (by simp [htask])
    obtain ⟨hmany, hreply⟩ := lastStored_iff.mp (h.newest hkept)
    simp only [ClocksAgree, ← hlength]
    exact ⟨hmany, onTop_of_reply hrecent hdistinct hreply⟩
  | _ =>
    rw [htask] at hreads
    contradiction

end Fresh

section Difference

variable {g : Timeline} {key : SeriesKey} {since : UInt64} {entries : List Entry}

private theorem StoredInStep.distinct (h : StoredInStep cfg g entries key since) :
    Distinct id (eligible entries since) := by
  rw [h.found]
  exact List.pairwise_map.mpr h.rising.distinct

private theorem diff_append_perm (xs ys : List Entry) : ((xs ++ ys).diff ys).Perm xs := by
  rw [← Multiset.coe_eq_coe, ← Multiset.coe_sub, ← Multiset.coe_add]
  exact add_tsub_cancel_right _ _

private theorem StoredInStep.onTop (h : StoredInStep cfg g entries key since) {n : Nat}
    (hn : n ≤ (eligible entries since).length) :
    OnTop cfg g entries since ((g.stored key).rtake n) := by
  rw [h.found, List.length_map] at hn
  have hend : (g.stored key).rtake n <:+ g.seen cfg key since := rtake_suffix_of_le h.last hn
  obtain ⟨older, hsplit⟩ := hend
  have hrising := h.rising
  rw [← hsplit, Rising, List.pairwise_append] at hrising
  have hfound : ∀ x ∈ (g.stored key).rtake n, x ∈ g.seen cfg key since := by
    intro x hx
    rw [← hsplit]
    exact List.mem_append_right _ hx
  constructor
  · intro x hx
    have hmem : x.2 ∈ eligible entries since := by
      rw [h.found]
      exact List.mem_map_of_mem (hfound x hx)
    exact List.mem_of_mem_filter hmem
  · exact fun x hx => of_decide_eq_true (List.mem_filter.mp (hfound x hx)).2
  · exact hrising.2.1
  · intro e he x hx
    rw [h.found, ← hsplit, List.map_append] at he
    obtain ⟨y, hy, rfl⟩ := List.mem_map.mp ((diff_append_perm _ _).mem_iff.mp he)
    exact hrising.2.2 y hy x hx

private theorem StoredInStep.le_iff (h : StoredInStep cfg g entries key since) {n : Nat} :
    n ≤ (eligible entries since).length ↔ n ≤ (g.stored key).length ∧
      ∀ x ∈ (g.stored key).rtake n,
        g.age x ≤ realWindow cfg + g.difference cfg since x := by
  rw [h.found, List.length_map, Timeline.seen, le_length_filter_iff h.last]
  simp

/-- Of readings that are found in the order of storing it depends on their ages whether the stamps
agree with the times. -/
private theorem StoredInStep.clocksAgree_iff (h : StoredInStep cfg g entries key since)
    (task : FusionTask) :
    ClocksAgree cfg g task entries key since ↔ AgesAgree cfg g task key since := by
  have hrecent : readLimit cfg ≤ (g.recent cfg key).length ↔
      readLimit cfg ≤ (g.stored key).length ∧
        ∀ x ∈ (g.stored key).rtake (readLimit cfg), g.age x ≤ realWindow cfg := le_recent_iff
  have hseen := h.le_iff (n := readLimit cfg)
  have hothers : (min (readLimit cfg) (eligible entries since).length ≤
      (g.recent cfg key).length ∧ OnTop cfg g entries since
        ((g.stored key).rtake (min (readLimit cfg) (eligible entries since).length))) ↔
      ∀ x ∈ (g.stored key).rtake (readLimit cfg),
        g.age x ≤ realWindow cfg + g.difference cfg since x → g.age x ≤ realWindow cfg := by
    have hfilter : ((g.stored key).rtake (readLimit cfg)).filter
        (fun x => g.age x ≤ realWindow cfg + g.difference cfg since x) =
        (g.stored key).rtake (min (readLimit cfg) (g.seen cfg key since).length) :=
      filter_rtake h.last
    have hcount : min (readLimit cfg) (eligible entries since).length ≤
        (eligible entries since).length := Nat.min_le_right _ _
    rw [and_iff_left (h.onTop hcount), le_recent_iff, and_iff_right (h.le_iff.mp hcount).1]
    rw [h.found, List.length_map]
    constructor
    · intro hall x hx hin
      apply hall
      rw [← hfilter]
      exact List.mem_filter.mpr ⟨hx, decide_eq_true hin⟩
    · intro hall x hx
      rw [← hfilter] at hx
      obtain ⟨hx, hin⟩ := List.mem_filter.mp hx
      exact hall x hx (of_decide_eq_true hin)
  cases task with
  | collecting since' todo samples =>
    simp only [ClocksAgree, AgesAgree]
    split
    · rename_i hmany
      obtain ⟨hlong, hyoung⟩ := hrecent.mp hmany
      constructor
      · intro htop _
        have hfits := htop.subperm.length_le
        rw [List.length_map, length_rtake, Nat.min_eq_left hlong] at hfits
        exact iff_of_true hyoung (hseen.mp hfits).2
      · intro hages
        exact h.onTop (hseen.mpr ⟨hlong, (hages hlong).mp hyoung⟩)
    · rename_i hfew
      rw [← Nat.not_le, hseen]
      constructor
      · intro hnone hlong
        exact iff_of_false (fun hyoung => hfew (hrecent.mpr ⟨hlong, hyoung⟩))
          (fun hin => hnone ⟨hlong, hin⟩)
      · rintro hages ⟨hlong, hin⟩
        exact hfew (hrecent.mpr ⟨hlong, (hages hlong).mpr hin⟩)
  | _ => exact hothers

/-- With a constant difference of the clocks, and no two stamps in the window alike, the readings
that are still there are found in the order of storing. -/
theorem storedInStep_of_steady {d : Int}
    (hsteady : ∀ x ∈ g.stored key, g.difference cfg since x = d)
    (hfound : eligible entries since = (g.seen cfg key since).map Prod.snd)
    (hdistinct : Distinct id (eligible entries since)) :
    StoredInStep cfg g entries key since := by
  have hstamp : ∀ x ∈ g.stored key, (x.2.score : Int) = x.1 + (d + g.boundLead cfg since) := by
    intro x hx
    have hdiff := hsteady x hx
    simp only [Timeline.difference, stampLead] at hdiff
    omega
  have hscores : (g.stored key).Pairwise fun x y => x.2.score ≤ y.2.score := by
    apply (g.times key).imp_of_mem
    intro x y hx hy hxy
    have hfirst := hstamp x hx
    have hsecond := hstamp y hy
    omega
  have hsorted : (g.seen cfg key since).Pairwise fun x y => x.2.score ≤ y.2.score :=
    hscores.filter _
  rw [hfound] at hdistinct
  refine ⟨hfound, ?_, ?_⟩
  · apply filter_suffix hscores
    intro x y hxy hx
    have hin := Timeline.age_le_iff.mp (of_decide_eq_true hx)
    exact decide_eq_true (Timeline.age_le_iff.mpr (hin.trans hxy))
  · apply (hsorted.and (List.pairwise_map.mp hdistinct)).imp
    rintro x y ⟨hle, hne⟩
    exact Nat.lt_of_le_of_ne hle hne

end Difference

/-- UTC at the tick. -/
def tickUtc (elapsed : Nat) : UInt64 := requestUtc + 3000 + UInt64.ofNat elapsed

/-- What the poll stores. -/
def laterEntry (tai : UInt64) (offset : F64) : Entry :=
  ⟨roundToF64 (requestUtc + 3000 + tai).toNat, offset⟩

def laterRead (tai : UInt64) (offset : F64) (elapsed : Nat) : FusionAction :=
  .recent (.ntp 11 .offset) (tickUtc elapsed - 30000000000) 1 (some [laterEntry tai offset])

/-- One poll, and an iteration some time later that reads what it has stored. -/
def laterActions (tai : UInt64) (offset : F64) (elapsed : Nat) : List (ControlMove × Nat) :=
  let poll := fun a : PollerAction => (Move.member (.poller serverTask) a : ControlMove)
  let fuse := fun a : FusionAction => (Move.member .fusion a : ControlMove)
  [(poll (.request (taiClocks requestUtc tai)), 0),
    (poll (.receive (exactReply tai) (taiClocks (requestUtc + 3000) tai)), 3000),
    (poll .publish, 0), (poll .publish, 0), (poll .publish, 0),
    (fuse (.tick (tickUtc elapsed)), elapsed), (fuse (laterRead tai offset elapsed), 0)]

def fromRequest : Timeline :=
  ⟨requestUtc.toNat, fun _ => [], fun _ => List.Pairwise.nil, by simp⟩

def laterTurns (tai : UInt64) (offset : F64) (elapsed : Nat) : List (TimedTurn controlConfig) :=
  (timedDaemon (fun _ _ => none) controlConfig).turnsOf
    (Daemon.init controlConfig emptyStore, fromRequest) (laterActions tai offset elapsed)

/-- The system clock shows real time, and the clock of the exchanges is ahead of it. -/
def onTime (tai : UInt64) (t : TimedTurn controlConfig) : Bool :=
  let utc := UInt64.ofNat (moment t).now
  let shows := fun c : Clocks =>
    c.gettime .realtime = some utc ∧ nowNs controlConfig.phcDevice c = some (utc + tai)
  match t.action.1 with
  | .member (.poller _) (.request c) => shows c
  | .member (.poller _) (.receive _ c) => shows c
  | .member .fusion (.tick now) => now = utc
  | _ => true

/-- A minute after a poll with the clock 37 s ahead, or a second after one with a right clock. -/
def LaterCase (tai : UInt64) (offset : F64) (elapsed : Nat) : Prop :=
  tai = 37000000000 ∧ offset = -37000000001 ∧ elapsed = 60000000000 ∨
    tai = 0 ∧ offset = -1 ∧ elapsed = 1000000000

private theorem laterTurns_run {tai : UInt64} {offset : F64} {elapsed : Nat}
    (h : LaterCase tai offset elapsed) :
    (∃ s, (timedDaemon (fun _ _ => none) controlConfig).Run
      (Daemon.init controlConfig emptyStore, fromRequest) (laterTurns tai offset elapsed) s) ∧
      (laterTurns tai offset elapsed).map Turn.action = laterActions tai offset elapsed := by
  have hexec : ((timedDaemon (fun _ _ => none) controlConfig).exec
      (Daemon.init controlConfig emptyStore, fromRequest)
      (laterActions tai offset elapsed)).isSome = true := by
    rcases h with ⟨rfl, rfl, rfl⟩ | ⟨rfl, rfl, rfl⟩ <;> decide +kernel
  exact ⟨⟨_, Run.of_actions hexec⟩, turnsOf_actions hexec⟩

private theorem laterTurns_onTime {tai : UInt64} {offset : F64} {elapsed : Nat}
    (h : LaterCase tai offset elapsed) :
    ∀ t ∈ laterTurns tai offset elapsed, onTime tai t = true := by
  have hall : ((laterTurns tai offset elapsed).all (onTime tai)) = true := by
    rcases h with ⟨rfl, rfl, rfl⟩ | ⟨rfl, rfl, rfl⟩ <;> decide +kernel
  exact List.all_eq_true.mp hall

/-- The source that is polled and read. -/
def laterSource : Source := (controlConfig.ntpSources.get serverTask).source

private theorem laterTurns_read {tai : UInt64} {offset : F64} {elapsed : Nat}
    (h : LaterCase tai offset elapsed) :
    ∃ t ∈ laterTurns tai offset elapsed,
      t.action.1 = .member .fusion (laterRead tai offset elapsed) ∧
      (t.before.1.members .fusion).task =
        .collecting (tickUtc elapsed - 30000000000) [laterSource] [] ∧
      (t.after.1.members .fusion).task.reads =
        some (.ntp 11 .delay, tickUtc elapsed - 30000000000) ∧
      t.before.1.medium (.ntp 11 .offset) = [laterEntry tai offset] ∧
      (moment t).stored (.ntp 11 .offset) =
        [((requestUtc + 3000).toNat, laterEntry tai offset)] ∧
      (moment t).now = (requestUtc + 3000).toNat + elapsed := by
  have htask : (laterTurns tai offset elapsed)[6]?.map (fun t =>
      ((t.before.1.members .fusion).task, (t.after.1.members .fusion).task.reads)) =
      some (.collecting (tickUtc elapsed - 30000000000) [laterSource] [],
        some (.ntp 11 .delay, tickUtc elapsed - 30000000000)) := by
    rcases h with ⟨rfl, rfl, rfl⟩ | ⟨rfl, rfl, rfl⟩ <;> decide +kernel
  have hstore : (laterTurns tai offset elapsed)[6]?.map (fun t =>
      (t.before.1.medium (.ntp 11 .offset), (moment t).stored (.ntp 11 .offset),
        (moment t).now)) =
      some ([laterEntry tai offset], [((requestUtc + 3000).toNat, laterEntry tai offset)],
        (requestUtc + 3000).toNat + elapsed) := by
    rcases h with ⟨rfl, rfl, rfl⟩ | ⟨rfl, rfl, rfl⟩ <;> decide +kernel
  obtain ⟨t, ht, hbefore⟩ := Option.map_eq_some_iff.mp htask
  rw [ht, Option.map_some, Option.some.injEq] at hstore
  simp only [Prod.mk.injEq] at hbefore hstore
  have haction := congrArg (fun as => as[6]?) (laterTurns_run h).2
  rw [List.getElem?_map, ht] at haction
  refine ⟨t, List.mem_of_getElem? ht, ?_, hbefore.1, hbefore.2, hstore⟩
  exact congrArg Prod.fst (Option.some.inj haction)

end Zeitpeer
