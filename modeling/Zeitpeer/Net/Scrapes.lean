import Zeitpeer.Net.Outcomes
import Zeitpeer.Net.Sharing
import Zeitpeer.Net.Windows
import Zeitpeer.Telemetry.Metrics

/-!
# What a scrape says about timeouts

Every expired probe is recorded with the value one under its peer, and a scrape exports the last
value that is recorded there. So the metric is one as long as anything is recorded, however many
probes have expired.
-/

namespace Zeitpeer

open Framework Machine Ensemble

variable {parse : String → UInt16 → Option SocketAddr}

section Recorded

variable {cfg : Config}

private theorem val_of_timeouts {i : PartOf cfg} {ts : List (Turn i.State i.Action i.Event)}
    {s : i.State}
    (hrun : (i.machine parse cfg).Run (i.init cfg) ts s) {e : i.Event} (he : e ∈ events ts)
    {w : TsAdd} (hw : i.write? e = some (.tsAdd w)) {p : UInt32}
    (hkey : w.key = .peer p .timeouts) : w.val = 1 := by
  have howns := part_owns hrun he hw
  rw [StoreWrite.key, hkey] at howns
  cases i with
  | node =>
    cases e with
    | tsAdd w' c =>
      obtain rfl := StoreWrite.tsAdd.inj (Option.some.inj hw)
      have horigin := (run_backed hrun).writes w' c he
      obtain ⟨t, rfl, _, _⟩ := (horigin.filed (p := p)).2 hkey
      obtain ⟨sys, rfl⟩ := horigin
      rfl
    | _ => contradiction
  | poller k =>
    obtain ⟨metric, howns⟩ := howns
    contradiction
  | _ => contradiction

end Recorded

section Nodes

variable {N : Type} [DecidableEq N] {cfgs : N → Config} {m : Shared} {p : UInt32}
  {ts : List (NodesTurn cfgs)} {s : NodesState cfgs}

/-- No other process records timeouts of the peer; entries may get lost. -/
def NoOtherTimeouts (p : UInt32) (t : NodesTurn cfgs) : Prop :=
  ∀ w : TsAdd, t.action = .drift (.write (.tsAdd w)) → w.key ≠ .peer p .timeouts

/-- In every run all recorded timeouts of a peer have the value one. -/
theorem run_ones (hrun : (nodes parse cfgs).toMachine.Run (Nodes.init cfgs m) ts s)
    (hother : ∀ t ∈ ts, NoOtherTimeouts p t)
    (hstart : ∀ e ∈ m.series (.peer p .timeouts), e.val = 1) :
    ∀ e ∈ s.medium.series (.peer p .timeouts), e.val = 1 := by
  refine hrun.invariant_of (I := fun _ s => ∀ e ∈ s.medium.series (.peer p .timeouts), e.val = 1)
    hstart ?_ hother
  intro ts s a s' es hrun hbefore hstep hother e he
  cases a with
  | drift d =>
    obtain ⟨medium, hdrift, rfl, _⟩ := step_drift hstep
    apply hbefore
    apply mem_series_drift hdrift _ he
    intro w hw
    exact hother w (congrArg _ hw)
  | member i a =>
    have hafter := hrun.turn hstep
    obtain ⟨n, fs, _, _, rfl, rfl⟩ := step_member hstep
    rcases mem_series_writes he with hold | ⟨w, hw, hkey, rfl⟩
    · exact hbefore e hold
    · obtain ⟨x, hx, hwrite⟩ := List.mem_filterMap.mp hw
      have hmem := (mem_events_view hafter).mpr (mem_events_last (List.mem_map_of_mem hx))
      exact val_of_timeouts (run_view hafter i) hmem hwrite hkey

/-- The probes to a peer that a node has recorded as expired. -/
def expiredTo (x : N) (p : UInt32) (ts : List (NodesTurn cfgs)) : Nat :=
  ((tally Event.timedOut? (events (view ⟨x, .node⟩ ts))).filter fun t => t.2.peerId = p).card

/-- A read of a peer's timeouts that handler `k` of node `x` makes in `u`, and after which it has
no new request before the end of `ts`. -/
def ScrapeRead (x : N) (k : Nat) (p : UInt32) (ts us : List (NodesTurn cfgs)) (u : NodesTurn cfgs)
    (reply : Option Entry) : Prop :=
  u.action = .member ⟨x, .handler k⟩ (.last (.peer p .timeouts) (some reply)) ∧
    ∃ vs, ts = us ++ u :: vs ∧ ∀ v ∈ vs, ∀ now, v.action ≠ .member ⟨x, .handler k⟩ (.metrics now)

private theorem scrapeRead_iff {x : N} {k : Nat} {reply : Option Entry} :
    (∃ us u, ScrapeRead x k p ts us u reply) ↔
      ∃ us u vs, view ⟨x, .handler k⟩ ts = us ++ u :: vs ∧
        u.action = HandlerAction.last (.peer p .timeouts) (some reply) ∧
        ∀ v ∈ vs, ∀ now, v.action ≠ HandlerAction.metrics now := by
  constructor
  · rintro ⟨us, u, haction, vs, rfl, hquiet⟩
    obtain ⟨u', hturn, haction'⟩ := turnOf_of_action haction
    refine ⟨view ⟨x, .handler k⟩ us, u', view ⟨x, .handler k⟩ vs, ?_, haction', ?_⟩
    · rw [view_append]
      simp [view, hturn]
    · intro v hv now hnow
      obtain ⟨w, hw, hact, _⟩ := mem_view hv
      exact hquiet w hw now (by rw [hact, hnow])
  · rintro ⟨us', u', vs', hview, haction, hquiet⟩
    obtain ⟨us, u, vs, rfl, _, hturn, rfl⟩ := view_split hview
    refine ⟨us, u, by rw [(turnOf_action hturn).1, haction], vs, rfl, ?_⟩
    intro v hv now hnow
    obtain ⟨v', hv', hact⟩ := mem_view_of_action hv hnow
    exact hquiet v' hv' now hact

private theorem mem_of_last_split {α : Type*} {P : α → Prop} {before earlier reads later : List α}
    {start u : α} (hsplit : before ++ start :: reads = earlier ++ u :: later) (hstart : P start)
    (hu : ¬ P u) (hlater : ∀ v ∈ later, ¬ P v) : u ∈ reads := by
  rcases List.append_eq_append_iff.mp hsplit with ⟨gap, rfl, hgap⟩ | ⟨gap, rfl, hgap⟩
  · cases gap with
    | nil =>
      obtain ⟨rfl, _⟩ := List.cons.inj hgap
      exact absurd hstart hu
    | cons v gap =>
      obtain ⟨_, rfl⟩ := List.cons.inj hgap
      simp
  · cases gap with
    | nil =>
      obtain ⟨rfl, _⟩ := List.cons.inj hgap
      exact absurd hstart hu
    | cons v gap =>
      obtain ⟨_, rfl⟩ := List.cons.inj hgap
      exact absurd hstart (hlater start (by simp))

private theorem exported_iff {x : N} {k : Nat} {t : NodesTurn cfgs}
    (hrun : (nodes parse cfgs).toMachine.Run (Nodes.init cfgs m) (ts ++ [t]) s)
    {answers : List Answer} (hemit : ⟨⟨x, .handler k⟩, .metrics answers⟩ ∈ t.emitted) (val : F64) :
    timeoutsTotal p val ∈ metricsBody (cfgs x) answers ↔
      ∃ e : Entry, (∃ us u, ScrapeRead x k p ts us u (some e)) ∧ e.val = val := by
  obtain ⟨t', hturn, hemit'⟩ := turnOf_of_emitted hrun.last.2.1 hemit
  have hlocal := run_view hrun ⟨x, .handler k⟩
  have hview : view ⟨x, .handler k⟩ (ts ++ [t]) = view ⟨x, .handler k⟩ ts ++ [t'] := by
    rw [view_append]
    simp [view, hturn]
  rw [hview] at hlocal
  obtain ⟨before, start, reads, hts, ⟨now, hstart⟩, hreads⟩ := run_answers hlocal hemit'
  have hanswered : ∀ q, q ∈ (metricsQueries (cfgs x)).zip answers ↔
      ∃ u ∈ reads, u.action.answered = some q := by
    intro q
    rw [← List.mem_map, hreads]
    simp
  rw [timeoutsTotal_mem_metricsBody]
  apply exists_congr
  intro e
  rw [hanswered, scrapeRead_iff, hts]
  apply and_congr_left
  intro _
  constructor
  · rintro ⟨u, hu, hread⟩
    obtain ⟨earlier, later, rfl⟩ := List.append_of_mem hu
    refine ⟨before ++ start :: earlier, u, later, by simp, HandlerAction.answered_last hread, ?_⟩
    intro v hv now hnow
    have hmem : v.action.answered ∈ (earlier ++ u :: later).map fun w => w.action.answered :=
      List.mem_map_of_mem (List.mem_append_right _ (List.mem_cons_of_mem _ hv))
    rw [hreads, hnow] at hmem
    simp [HandlerAction.answered] at hmem
  · rintro ⟨earlier, u, later, hsplit, haction, hquiet⟩
    refine ⟨u, ?_, by rw [haction, HandlerAction.answered]⟩
    apply mem_of_last_split (P := fun v : HandlerTurn => ∃ now, v.action = .metrics now) hsplit
    · exact ⟨now, hstart⟩
    · rintro ⟨now, hnow⟩
      rw [haction] at hnow
      contradiction
    · rintro v hv ⟨now, hnow⟩
      exact hquiet v hv now hnow

private theorem ScrapeRead.value {x : N} {k : Nat} {us : List (NodesTurn cfgs)} {u : NodesTurn cfgs}
    {reply : Option Entry} (hread : ScrapeRead x k p ts us u reply)
    (hrun : (nodes parse cfgs).toMachine.Run (Nodes.init cfgs m) ts s)
    (hother : ∀ t ∈ ts, NoOtherTimeouts p t)
    (hstart : ∀ e ∈ m.series (.peer p .timeouts), e.val = 1) :
    reply.map Entry.val =
      if u.before.medium.series (.peer p .timeouts) = [] then none else some 1 := by
  obtain ⟨haction, vs, rfl, _⟩ := hread
  obtain ⟨hbefore, hstep, _⟩ := hrun.middle
  have hones := run_ones hbefore (fun t ht => hother t (List.mem_append_left _ ht)) hstart
  rw [haction] at hstep
  obtain ⟨n, fs, hallow, _⟩ := step_member hstep
  have hlast : IsLast (u.before.medium.series (.peer p .timeouts)) reply :=
    of_decide_eq_true hallow
  cases reply with
  | none =>
    have hnil : u.before.medium.series (.peer p .timeouts) = [] := hlast
    rw [if_pos hnil, Option.map_none]
  | some e =>
    rw [if_neg (List.ne_nil_of_mem hlast.1), Option.map_some, hones e hlast.1]

private theorem respond_step {x : N} {k : Nat} {since : UInt64} {answers : List Answer}
    (hdone : s.members ⟨x, .handler k⟩ = HandlerTask.metrics since [] answers) :
    ∃ s', (nodes parse cfgs).toMachine.step s (.member ⟨x, .handler k⟩ HandlerAction.respond) =
      some (s', [⟨⟨x, .handler k⟩, HandlerEvent.metrics answers⟩]) := by
  have hlocal : ((nodes parse cfgs).machine ⟨x, .handler k⟩).step (s.members ⟨x, .handler k⟩)
      HandlerAction.respond = some (HandlerTask.idle, [HandlerEvent.metrics answers]) := by
    rw [hdone]
    rfl
  exact ⟨_, member_step rfl hlocal⟩

/-- A response exports for a peer the values of its reads of the peer's timeouts, and such a value
is the number of probes that have been recorded as expired until then exactly if this is one
probe, and it is still in the store. -/
theorem timeouts_total_iff {x : N} {k : Nat} {t : NodesTurn cfgs}
    (hrun : (nodes parse cfgs).toMachine.Run (Nodes.init cfgs m) (ts ++ [t]) s)
    (hother : ∀ u ∈ ts, NoOtherTimeouts p u)
    (hstart : ∀ e ∈ m.series (.peer p .timeouts), e.val = 1) {answers : List Answer}
    (hemit : ⟨⟨x, .handler k⟩, .metrics answers⟩ ∈ t.emitted) :
    (∀ val, timeoutsTotal p val ∈ metricsBody (cfgs x) answers ↔
      ∃ e : Entry, (∃ us u, ScrapeRead x k p ts us u (some e)) ∧ e.val = val) ∧
    ∀ us u reply, ScrapeRead x k p ts us u reply →
      (reply.map Entry.val = some (expiredTo x p us : F64) ↔
        expiredTo x p us = 1 ∧ u.before.medium.series (.peer p .timeouts) ≠ []) := by
  refine ⟨exported_iff hrun hemit, ?_⟩
  intro us u reply hread
  rw [hread.value hrun.last.1 hother hstart]
  by_cases hnone : u.before.medium.series (.peer p .timeouts) = []
  · simp [hnone]
  · rw [if_neg hnone]
    constructor
    · intro h
      have hcount : (expiredTo x p us : F64) = 1 := (Option.some.inj h).symm
      exact ⟨by exact_mod_cast hcount, hnone⟩
    · rintro ⟨h, _⟩
      rw [h, Nat.cast_one]

end Nodes

/-- A node that sends a burst of probes to one peer. -/
def burstConfig (burst : UInt32) : Config :=
  { demoConfig with sampling := { intervalMs := 1000, windowSec := 30, burst := some burst } }

def burstNode (burst : UInt32) := nodes demoParse fun _ : Unit => burstConfig burst

abbrev BurstMove (burst : UInt32) : Type :=
  Move (fun i : PartIn (fun _ : Unit => burstConfig burst) => i.2.Action) SharedDrift

/-- The probes of the first tick, which nobody answers. -/
def burstTokens (burst : UInt32) : List Token :=
  (List.range burst.toNat).map fun n =>
    ⟨UInt32.ofNat (n + 1), { peerId := 2, t1Ns := 1000, sentAt := 0 }⟩

/-- The probes of one tick expire in the next one. -/
def burstExpires (burst : UInt32) : List Action :=
  .txTick :: (List.replicate burst.toNat [.txDraw (some 1000), .txSend true, .txInsert]).flatten ++
    [.txCleanup, .txSweep [], .advance 3000000000, .txTick] ++
    List.replicate burst.toNat (.txDraw none) ++ [.txCleanup, .txSweep (burstTokens burst)] ++
    List.replicate burst.toNat (.txExpire 3000000000)

def burstScrape : List HandlerAction :=
  [.metrics 4000000000, .recent (.fused .ewma) 0 256 (some []),
    .recent (.fused .driftPpm) 0 256 (some []), .recent (.phc .systemOffset) 0 256 (some []),
    .recent (.phc .fusedDelta) 0 256 (some []), .getAll (.peerSummary 2) (some []),
    .last (.peer 2 .timeouts) (some (some ⟨3000000000, 1⟩))]

def burstMoves (burst : UInt32) : List (BurstMove burst) :=
  (burstExpires burst).map (fun a => .member ⟨(), .node⟩ a) ++
    burstScrape.map (fun a => .member ⟨(), .handler 0⟩ a)

def burstTurns (burst : UInt32) : List (NodesTurn fun _ : Unit => burstConfig burst) :=
  (burstNode burst).toMachine.turnsOf (Nodes.init _ emptyShared) (burstMoves burst)

def burstAnswers : List Answer :=
  [.recent (some []), .recent (some []), .recent (some []), .recent (some []), .getAll (some []),
    .last (some (some ⟨3000000000, 1⟩))]

private theorem burst_runs {burst : UInt32} (h : burst = 1 ∨ burst = 2) :
    ∃ t s, (burstNode burst).toMachine.Run (Nodes.init _ emptyShared) (burstTurns burst ++ [t]) s ∧
      ⟨⟨(), .handler 0⟩, HandlerEvent.metrics burstAnswers⟩ ∈ t.emitted := by
  have hexec : ((burstNode burst).toMachine.exec (Nodes.init _ emptyShared)
      (burstMoves burst)).isSome = true := by
    rcases h with rfl | rfl <;> decide +kernel
  have hdone : ((burstNode burst).toMachine.stateAfter (Nodes.init _ emptyShared)
      (burstMoves burst)).members ⟨(), .handler 0⟩ = HandlerTask.metrics 0 [] burstAnswers := by
    rcases h with rfl | rfl <;> decide +kernel
  obtain ⟨s', hstep⟩ := respond_step hdone
  exact ⟨_, s', (Run.of_actions hexec).turn hstep, List.mem_singleton_self _⟩

private theorem burst_expired {burst : UInt32} (h : burst = 1 ∨ burst = 2) :
    expiredTo () 2 (burstTurns burst) = burst.toNat := by
  rcases h with rfl | rfl <;> decide +kernel

private theorem burst_read :
    ∃ us u, ScrapeRead () 0 2 (burstTurns 1) us u (some ⟨3000000000, 1⟩) ∧
      expiredTo () 2 us = 1 ∧ u.before.medium.series (.peer 2 .timeouts) ≠ [] := by
  have hactions : (burstTurns 1).map Turn.action = burstMoves 1 :=
    turnsOf_actions (by decide +kernel)
  have hseries : (burstTurns 1).getLast?.map (fun u => u.before.medium.series (.peer 2 .timeouts)) =
      some [⟨3000000000, 1⟩] := by decide +kernel
  obtain ⟨u, hlast, hstored⟩ := Option.map_eq_some_iff.mp hseries
  obtain ⟨us, hus⟩ := List.getLast?_eq_some_iff.mp hlast
  have hearlier : us = (burstTurns 1).dropLast := by rw [hus, List.dropLast_concat]
  refine ⟨us, u, ⟨?_, [], hus, by simp⟩, ?_, by simp [hstored]⟩
  · have haction := congrArg List.getLast? hactions
    rw [List.getLast?_map, hlast] at haction
    exact Option.some.inj haction
  · rw [hearlier]
    decide +kernel

/-- The only timeout there is counts for one. -/
theorem timeouts_total_one :
    ∃ us u, ScrapeRead () 0 2 (burstTurns 1) us u (some ⟨3000000000, 1⟩) ∧
      timeoutsTotal 2 (expiredTo () 2 us) ∈ metricsBody (burstConfig 1) burstAnswers := by
  obtain ⟨t, s, hrun, hemit⟩ := burst_runs (.inl rfl)
  obtain ⟨us, u, hread, hcount, hstored⟩ := burst_read
  have hother : ∀ u ∈ burstTurns 1, NoOtherTimeouts 2 u := by
    intro u hu w hw
    have hmove := action_mem_of_turnsOf hu
    rw [hw] at hmove
    simp [burstMoves] at hmove
  obtain ⟨hvalues, hcounts⟩ :=
    timeouts_total_iff hrun hother (by simp [emptyShared, emptyStore]) hemit
  have hsame := Option.some.inj ((hcounts us u _ hread).mpr ⟨hcount, hstored⟩)
  exact ⟨us, u, hread, (hvalues _).mpr ⟨_, ⟨us, u, hread⟩, hsame⟩⟩

/-- Two timeouts are exported as one. -/
theorem timeouts_not_counted :
    ¬ ∀ ts t s answers val,
      (burstNode 2).toMachine.Run (Nodes.init _ emptyShared) (ts ++ [t]) s →
      ⟨⟨(), .handler 0⟩, HandlerEvent.metrics answers⟩ ∈ t.emitted →
      timeoutsTotal 2 val ∈ metricsBody (burstConfig 2) answers → val = expiredTo () 2 ts := by
  intro hcounts
  obtain ⟨t, s, hrun, hemit⟩ := burst_runs (.inr rfl)
  have hone := hcounts _ t s burstAnswers 1 hrun hemit (by decide)
  rw [burst_expired (.inr rfl)] at hone
  exact absurd hone (by decide)

end Zeitpeer
