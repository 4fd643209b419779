import Zeitpeer.Net.Outcomes
import Zeitpeer.Net.Polls
import Zeitpeer.Net.Sharing
import Zeitpeer.Net.Summaries

/-!
# What a summary keeps of earlier polls

A poll that has no result of its ping, or of its comparison, does not set the field, and the field
keeps what an earlier poll has set. After a poll the summary is about this poll alone exactly if
what it has not found no earlier poll has found either.
-/

namespace Zeitpeer

open Framework Machine Ensemble

variable {N : Type} [DecidableEq N] {parse : String → UInt16 → Option SocketAddr}
  {cfgs : N → Config} {m : Shared} {id : UInt32} {ts : List (NodesTurn cfgs)} {t : NodesTurn cfgs}
  {s : NodesState cfgs}

/-- A poll of a server ends with the turn, and these are its findings. -/
inductive PollEnds (id : UInt32) (ts : List (NodesTurn cfgs)) (t : NodesTurn cfgs) :
    Findings → Prop where
  | mk (x : N) (k : Fin (cfgs x).ntpSources.length) (h : HmSet)
      (hid : (serverOf cfgs x k).id = id) (hemit : ⟨⟨x, .poller k⟩, .hmSet h⟩ ∈ t.emitted) :
      PollEnds id ts t (pollFindings x k ts)

private theorem pollEnds_of_emitted {x : N} {k : Fin (cfgs x).ntpSources.length} {h : HmSet}
    (hemit : ⟨⟨x, .poller k⟩, PollerEvent.hmSet h⟩ ∈ t.emitted) :
    PollEnds (serverOf cfgs x k).id ts t (pollFindings x k ts) :=
  .mk x k h rfl hemit

/-- A poll that has ended within a history. -/
def Polled (id : UInt32) (ts : List (NodesTurn cfgs)) (o : Findings) : Prop :=
  ∃ us u vs, ts = us ++ u :: vs ∧ PollEnds id us u o

/-- A summary has a finding exactly if the poll has. -/
theorem lookup_pollSummary (src : NtpSource) (measured : Measured) (c : Clocks) (o : Findings)
    (x : Finding) : (pollSummary src measured c o).fields.lookup x.field = o.get x := by
  obtain ⟨_, mean, ping⟩ := o
  cases x <;> cases mean <;> cases ping <;> rfl

private theorem PollEnds.summary
    (hrun : (nodes parse cfgs).toMachine.Run (Nodes.init cfgs m) (ts ++ [t]) s) {o : Findings}
    (hends : PollEnds id ts t o) :
    ∃ e ∈ t.emitted, ∃ h, eventSummary id e = some h ∧ ∀ x : Finding,
      h.fields.lookup x.field = o.get x := by
  obtain ⟨x, k, h, hid, hemit⟩ := hends
  obtain ⟨u, hu, hlocal⟩ := view_concat_of_emitted hrun hemit
  obtain ⟨measured, c, _, rfl⟩ := comparing_summary hlocal hu
  exact ⟨_, hemit, _, if_pos (congrArg HashKey.ntpSummary hid),
    lookup_pollSummary (serverOf cfgs x k) measured c (pollFindings x k ts)⟩

private theorem SummaryWrite.pollEnds {e : NodesEvent cfgs} (he : e ∈ t.emitted) {h : HmSet}
    (hwrite : SummaryWrite id ts e h) {x : Finding} {val : F64}
    (hval : h.fields.lookup x.field = some val) :
    ∃ o, PollEnds id ts t o ∧ o.get x = some val := by
  cases hwrite with
  | poll y k hid measured c =>
    refine ⟨_, .mk y k _ hid he, ?_⟩
    rw [← hval, lookup_pollSummary]
  | sample y _ _ horigin =>
    obtain ⟨_, _, _, _, p, _, hh⟩ := horigin
    rw [← Effect.hmSet.inj hh] at hval
    cases x <;> contradiction

private theorem PollEnds.unique
    (hrun : (nodes parse cfgs).toMachine.Run (Nodes.init cfgs m) (ts ++ [t]) s) {o o' : Findings}
    (hends : PollEnds id ts t o) (hends' : PollEnds id ts t o') : o = o' := by
  obtain ⟨_, hstep, _⟩ := hrun.last
  obtain ⟨x, k, h, hid, hemit⟩ := hends
  obtain ⟨x', k', h', hid', hemit'⟩ := hends'
  obtain ⟨before, a, es, after⟩ := t
  cases a with
  | member i a =>
    obtain ⟨n, fs, _, _, _, rfl⟩ := step_member hstep
    obtain ⟨_, _, heq⟩ := List.mem_map.mp hemit
    obtain ⟨_, _, heq'⟩ := List.mem_map.mp hemit'
    have hi : i = ⟨x, .poller k⟩ := congrArg Sigma.fst heq
    have hi' : i = ⟨x', .poller k'⟩ := congrArg Sigma.fst heq'
    cases hi.symm.trans hi'
    rfl
  | drift d =>
    obtain ⟨_, _, _, rfl⟩ := step_drift hstep
    contradiction

/-- A finding is in the summary exactly if it has been there at the start or some poll has had
it. -/
private theorem lookup_isSome_iff (hrun : (nodes parse cfgs).toMachine.Run (Nodes.init cfgs m) ts s)
    (hkept : ∀ t ∈ ts, SummaryKept id t) (x : Finding) :
    ((s.medium.hashes (.ntpSummary id)).lookup x.field).isSome = true ↔
      ((m.hashes (.ntpSummary id)).lookup x.field).isSome = true ∨
        ∃ o, Polled id ts o ∧ (o.get x).isSome = true := by
  have hset : ((summariesOf id ts).filterMap fun h => h.fields.lookup x.field) ≠ [] ↔
      ∃ o, Polled id ts o ∧ (o.get x).isSome = true := by
    constructor
    · intro hne
      obtain ⟨val, hmem⟩ := List.exists_mem_of_ne_nil _ hne
      obtain ⟨h, hh, hval⟩ := List.mem_filterMap.mp hmem
      obtain ⟨e, he, hsum⟩ := List.mem_filterMap.mp hh
      obtain ⟨t, ht, hemit⟩ := mem_events.mp he
      obtain ⟨before, rest, rfl⟩ := List.append_of_mem ht
      obtain ⟨o, hends, hget⟩ :=
        (summary_cases hrun.middle.2.2 hemit hsum).pollEnds hemit hval
      exact ⟨o, ⟨before, t, rest, rfl, hends⟩, Option.isSome_iff_exists.mpr ⟨val, hget⟩⟩
    · rintro ⟨o, ⟨before, t, rest, rfl, hends⟩, hget⟩
      obtain ⟨e, he, h, hsum, hfields⟩ := hends.summary hrun.middle.2.2
      obtain ⟨val, hval⟩ := Option.isSome_iff_exists.mp hget
      have hmem : h ∈ summariesOf id (before ++ t :: rest) :=
        List.mem_filterMap.mpr ⟨e, mem_events.mpr ⟨t, by simp, he⟩, hsum⟩
      exact List.ne_nil_of_mem
        (List.mem_filterMap.mpr ⟨h, hmem, (hfields x).trans hval⟩)
  rw [run_summary_lookup hrun hkept, ← hset, Option.isSome_or, Bool.or_eq_true, or_comm]
  simp only [List.getLast?_isSome]

private theorem polled_concat {o : Findings} :
    Polled id (ts ++ [t]) o ↔ Polled id ts o ∨ PollEnds id ts t o := by
  constructor
  · rintro ⟨us, u, vs, hsplit, hends⟩
    rcases List.eq_nil_or_concat vs with rfl | ⟨vs, v, rfl⟩
    · obtain ⟨rfl, hlast⟩ := List.append_inj' hsplit rfl
      obtain rfl := List.singleton_inj.mp hlast
      exact .inr hends
    · have hsplit' : ts ++ [t] = us ++ u :: vs ++ [v] := by simpa using hsplit
      obtain ⟨rfl, _⟩ := List.append_inj' hsplit' rfl
      exact .inl ⟨us, u, vs, rfl, hends⟩
  · rintro (⟨us, u, vs, rfl, hends⟩ | hends)
    · exact ⟨us, u, vs ++ [t], by simp, hends⟩
    · exact ⟨ts, t, [], rfl, hends⟩

/-- After a poll the findings in the summary are those of the poll exactly if what the poll has
not found was not there at the start and no earlier poll has found it. -/
theorem summary_of_one_poll_iff
    (hrun : (nodes parse cfgs).toMachine.Run (Nodes.init cfgs m) (ts ++ [t]) s)
    (hkept : ∀ u ∈ ts ++ [t], SummaryKept id u) {o : Findings} (hends : PollEnds id ts t o) :
    (∀ x : Finding, ((s.medium.hashes (.ntpSummary id)).lookup x.field).isSome = true ↔
        (o.get x).isSome = true) ↔
      ∀ x : Finding, (o.get x).isSome = true ∨
        ((m.hashes (.ntpSummary id)).lookup x.field).isSome = false ∧
          ∀ o', Polled id ts o' → (o'.get x).isSome = false := by
  apply forall_congr'
  intro x
  rw [lookup_isSome_iff hrun hkept x]
  have hlast : (∃ o', Polled id (ts ++ [t]) o' ∧ (o'.get x).isSome = true) ↔
      (o.get x).isSome = true ∨ ∃ o', Polled id ts o' ∧ (o'.get x).isSome = true := by
    constructor
    · rintro ⟨o', hpolled, hget⟩
      rcases polled_concat.mp hpolled with hpolled | hends'
      · exact .inr ⟨o', hpolled, hget⟩
      · rw [hends.unique hrun hends']
        exact .inl hget
    · rintro (hget | ⟨o', hpolled, hget⟩)
      · exact ⟨o, polled_concat.mpr (.inr hends), hget⟩
      · exact ⟨o', polled_concat.mpr (.inl hpolled), hget⟩
  rw [hlast]
  by_cases hget : (o.get x).isSome = true
  · simp [hget]
  · simp only [hget, Bool.false_eq_true, false_or, iff_false, not_or, not_exists, not_and,
      Bool.not_eq_true]

def PollerTask.ends : PollerTask → Bool
  | .storing _ (.hmSet :: _) _ => true
  | _ => false

private theorem exists_poll_end {x : N} {k : Fin (cfgs x).ntpSources.length}
    (hrun : (nodes parse cfgs).toMachine.Run (Nodes.init cfgs m) ts s)
    (hends : (s.members ⟨x, .poller k⟩ : Comparing).poller.task.ends = true) :
    ∃ t h, (nodes parse cfgs).toMachine.Run (Nodes.init cfgs m) (ts ++ [t]) t.after ∧
      (∀ i, SummaryKept i t) ∧ ⟨⟨x, .poller k⟩, PollerEvent.hmSet h⟩ ∈ t.emitted := by
  have hlocal : ∃ c h, ((nodes parse cfgs).machine ⟨x, .poller k⟩).step
      (s.members ⟨x, .poller k⟩) (ComparingAction.own .publish) =
        some (c, [PollerEvent.hmSet h]) := by
    generalize (s.members ⟨x, .poller k⟩ : Comparing) = c at hends ⊢
    obtain ⟨⟨_, _, _, task⟩, _, _⟩ := c
    match task, hends with
    | .storing _ (.hmSet :: _) fields, _ => exact ⟨_, _, rfl⟩
  obtain ⟨c, h, hlocal⟩ := hlocal
  have hstep := member_step (e := nodes parse cfgs) (s := s) rfl hlocal
  refine ⟨_, h, hrun.turn hstep, ?_, List.mem_singleton_self _⟩
  intro i d hd
  contradiction

section Solo

variable {cfg : Config} {k : Fin cfg.ntpSources.length}

abbrev SoloMove (cfg : Config) : Type :=
  Move (fun i : PartIn (fun _ : Unit => cfg) => i.2.Action) SharedDrift

def soloNode (cfg : Config) := nodes demoParse fun _ : Unit => cfg

def soloTurns {cfg : Config} (moves : List (SoloMove cfg)) :
    List (NodesTurn fun _ : Unit => cfg) :=
  (soloNode cfg).toMachine.turnsOf (Nodes.init _ emptyShared) moves

/-- What the last poll of a server has found. -/
def lastFindings {cfg : Config} (k : Fin cfg.ntpSources.length) (moves : List (SoloMove cfg)) :
    Findings :=
  pollFindings () k (soloTurns moves)

/-- Nothing from outside, and an answer to every read of a summary. -/
def isAnswered {cfg : Config} : SoloMove cfg → Bool
  | .member ⟨(), .poller _⟩ (.getAll _ none) => false
  | .member _ _ => true
  | .drift _ => false

/-- Moves that leave only the summary of the last poll to be set. -/
structure Ending (k : Fin cfg.ntpSources.length) (moves : List (SoloMove cfg)) : Prop where
  exec : ((soloNode cfg).toMachine.exec (Nodes.init _ emptyShared) moves).isSome = true
  ends : (((soloNode cfg).toMachine.stateAfter (Nodes.init _ emptyShared) moves).members
    ⟨(), .poller k⟩ : Comparing).poller.task.ends = true
  answered : moves.all isAnswered = true

private theorem Ending.kept {moves : List (SoloMove cfg)} (h : Ending k moves) (id : UInt32) :
    ∀ u ∈ soloTurns moves, SummaryKept id u := by
  intro u hu d hd
  have hmove := List.all_eq_true.mp h.answered _ (action_mem_of_turnsOf hu)
  rw [hd] at hmove
  contradiction

theorem Ending.exists_end {moves : List (SoloMove cfg)} (h : Ending k moves) :
    ∃ t x, (soloNode cfg).toMachine.Run (Nodes.init _ emptyShared) (soloTurns moves ++ [t])
        t.after ∧
      (∀ id, ∀ u ∈ soloTurns moves ++ [t], SummaryKept id u) ∧
      ⟨⟨(), .poller k⟩, PollerEvent.hmSet x⟩ ∈ t.emitted := by
  obtain ⟨t, x, hrun, hkept, hemit⟩ := exists_poll_end (Run.of_actions h.exec) h.ends
  refine ⟨t, x, hrun, ?_, hemit⟩
  intro id
  rw [List.forall_mem_append, List.forall_mem_singleton]
  exact ⟨h.kept id, hkept id⟩

private theorem Ending.exists_pollEnds {moves : List (SoloMove cfg)} (h : Ending k moves) :
    ∃ t, (soloNode cfg).toMachine.Run (Nodes.init _ emptyShared) (soloTurns moves ++ [t]) t.after ∧
      (∀ id, ∀ u ∈ soloTurns moves ++ [t], SummaryKept id u) ∧
      PollEnds (cfg.ntpSources.get k).id (soloTurns moves) t (lastFindings k moves) := by
  obtain ⟨t, x, hrun, hkept, hemit⟩ := h.exists_end
  exact ⟨t, hrun, hkept, pollEnds_of_emitted hemit⟩

end Solo

/-- The exchange of a poll, with a server that is ahead. -/
def exchangeMoves (now ahead : UInt64) : List PollerAction :=
  [.request (taiOnly now),
    .receive ([0b00100100, 1] ++ List.replicate 22 0 ++ encodeNtpTimestamp now ++
      encodeNtpTimestamp (now + ahead + 100) ++ encodeNtpTimestamp (now + ahead + 110))
      (taiOnly (now + 210))]

/-- What has been measured is stored. -/
def storeMoves (now : UInt64) : List PollerAction :=
  List.replicate 5 .publish ++ [.systemNow (taiOnly now)] ++ List.replicate 2 .publish

/-- Everything but the summary, for the only server of a node. -/
def pollMoves (now : UInt64) (ping : Option F64) : List PollerAction :=
  exchangeMoves now 5000 ++ storeMoves now ++ [.compare [], .ping ping] ++
    List.replicate ping.toList.length .publish

def onlyServer : Fin pollConfig.ntpSources.length := ⟨0, by decide⟩

def asMoves (as : List PollerAction) : List (SoloMove pollConfig) :=
  as.map fun a => .member ⟨(), .poller onlyServer⟩ (ComparingAction.own a)

/-- A poll whose ping succeeds. -/
def pingedMoves : List (SoloMove pollConfig) := asMoves (pollMoves 1700000000000000000 (some 12))

/-- The same, then a poll whose ping fails. -/
def unpingedMoves : List (SoloMove pollConfig) :=
  pingedMoves ++ asMoves [.publish] ++ asMoves (pollMoves 1700000002000000000 none)

private theorem pinged_ending : Ending onlyServer pingedMoves :=
  ⟨by decide +kernel, by decide +kernel, by decide +kernel⟩

theorem unpinged_ending : Ending onlyServer unpingedMoves :=
  ⟨by decide +kernel, by decide +kernel, by decide +kernel⟩

private theorem Ending.not_polled {moves : List (SoloMove pollConfig)} (h : Ending onlyServer moves)
    {x : Finding}
    (hnone : ((((soloNode pollConfig).toMachine.stateAfter (Nodes.init _ emptyShared)
      moves).medium.hashes (.ntpSummary 11)).lookup x.field).isSome = false) {o : Findings}
    (hpolled : Polled 11 (soloTurns moves) o) : (o.get x).isSome = false := by
  rw [← Bool.not_eq_true]
  intro hget
  have hsome := (lookup_isSome_iff (Run.of_actions h.exec) (h.kept 11) x).mpr
    (.inr ⟨o, hpolled, hget⟩)
  exact Bool.false_ne_true (hnone.symm.trans hsome)

/-- A first poll whose ping succeeds. -/
theorem summary_of_one_poll_first :
    ∃ t, (soloNode pollConfig).toMachine.Run (Nodes.init _ emptyShared)
        (soloTurns pingedMoves ++ [t]) t.after ∧
      ∀ x : Finding, ((t.after.medium.hashes (.ntpSummary 11)).lookup x.field).isSome = true ↔
        ((lastFindings onlyServer pingedMoves).get x).isSome = true := by
  obtain ⟨t, hrun, hkept, hends⟩ := pinged_ending.exists_pollEnds
  refine ⟨t, hrun, (summary_of_one_poll_iff hrun (hkept 11) hends).mpr ?_⟩
  intro x
  cases x with
  | pingMs => exact .inl (by decide +kernel)
  | offsetVsMean =>
    exact .inr ⟨rfl, fun o hpolled => pinged_ending.not_polled (by decide +kernel) hpolled⟩

private theorem Ending.leaves {moves : List (SoloMove pollConfig)} (h : Ending onlyServer moves)
    {x : Finding}
    (hsome : ((((soloNode pollConfig).toMachine.stateAfter (Nodes.init _ emptyShared)
      moves).medium.hashes (.ntpSummary 11)).lookup x.field).isSome = true) :
    ∃ t, (soloNode pollConfig).toMachine.Run (Nodes.init _ emptyShared) (soloTurns moves ++ [t])
        t.after ∧
      (∀ u ∈ soloTurns moves ++ [t], SummaryKept 11 u) ∧
      PollEnds 11 (soloTurns moves) t (lastFindings onlyServer moves) ∧
      ((t.after.medium.hashes (.ntpSummary 11)).lookup x.field).isSome = true := by
  obtain ⟨t, hrun, hkept, hends⟩ := h.exists_pollEnds
  refine ⟨t, hrun, hkept 11, hends, ?_⟩
  rw [lookup_isSome_iff hrun (hkept 11)]
  rcases (lookup_isSome_iff (Run.of_actions h.exec) (h.kept 11) x).mp hsome with
    hstart | ⟨o, ho, hget⟩
  · exact .inl hstart
  · exact .inr ⟨o, polled_concat.mpr (.inl ho), hget⟩

/-- After the second poll the summary has the ping of the first one. -/
theorem stale_ping :
    ¬ ∀ ts t s o, (soloNode pollConfig).toMachine.Run (Nodes.init _ emptyShared) (ts ++ [t]) s →
      (∀ u ∈ ts ++ [t], SummaryKept 11 u) → PollEnds 11 ts t o →
      ∀ x : Finding, ((s.medium.hashes (.ntpSummary 11)).lookup x.field).isSome = true ↔
        (o.get x).isSome = true := by
  intro hsame
  have hbefore : ((((soloNode pollConfig).toMachine.stateAfter (Nodes.init _ emptyShared)
      unpingedMoves).medium.hashes (.ntpSummary 11)).lookup Finding.pingMs.field).isSome =
        true := by decide +kernel
  have hnow : ((lastFindings onlyServer unpingedMoves).get .pingMs).isSome = false := by
    decide +kernel
  obtain ⟨t, hrun, hkept, hends, hafter⟩ := unpinged_ending.leaves hbefore
  have hfound := (hsame _ _ _ _ hrun hkept hends .pingMs).mp hafter
  exact Bool.false_ne_true (hnow.symm.trans hfound)

end Zeitpeer
