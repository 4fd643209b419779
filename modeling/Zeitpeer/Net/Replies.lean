import Zeitpeer.Net.Timing

/-!
# Prompt and late replies

Expiry is decided by the sweep at the end of a transmit tick, acceptance by the receive task,
and the two meet only in the pending map. A prompt reply is lost exactly if it overtakes the
insertion of its own entry or another server's response took the entry; a late reply is
recorded exactly if it overtakes the sweep.
-/

namespace Zeitpeer

open Framework Machine

variable {parse : String → UInt16 → Option SocketAddr} {cfg : Config}

/-- A response of the probed peer is looked up within the timeout after its probe was sent. -/
structure PromptReply (ts : List NodeTurn) (probe : Probe) (resp : TimeResponse)
    (before : List NodeTurn) (u : NodeTurn) : Prop where
  turn : before ++ [u] <+: ts
  lookedUp : LooksUp u resp
  seq : resp.header.seq = probe.seq
  server : resp.serverId = probe.target.peerId
  prompt : ∃ v ∈ before, Sends v probe ∧ u.before.now ≤ v.before.now + responseTimeout

/-- This response, or an earlier one, is the probe's sample, and no timeout is counted for it. -/
def RecordedAsSample (ts : List NodeTurn) (s : NodeState) (probe : Probe) (resp : TimeResponse)
    (before : List NodeTurn) (u : NodeTurn) : Prop :=
  ((∃ e, u.after.rx = .matched e ∧ e.resp = resp) ∨
    probe.seq ∈ (tally Event.sampled? (events before)).map Sigma.fst) ∧
  probe.seq ∈ (s.rx.inHand + tally Event.sampled? (events ts)).map Sigma.fst ∧
  probe.seq ∉ (s.tx.inHand + tally Event.timedOut? (events ts)).map Sigma.fst

private theorem PromptReply.inserted {ts before : List NodeTurn} {s : NodeState} {u : NodeTurn}
    {probe : Probe} {resp : TimeResponse} (hrun : (node parse cfg).Run {} ts s)
    (h : PromptReply ts probe resp before u) :
    (∃ todo, u.before.tx = .sent probe todo) ∨
      ∃ n, u.before.now ≤ n + responseTimeout ∧
        (⟨probe.seq, probe.pending n⟩ : Token) ∈ tally Event.inserted? (events before) := by
  obtain ⟨after, rfl⟩ := h.turn
  obtain ⟨v, hv, ⟨todo, haction, htx⟩, hprompt⟩ := h.prompt
  rw [List.append_assoc, List.singleton_append] at hrun
  obtain ⟨earlier, later, rfl⟩ := List.append_of_mem hv
  have hbefore := hrun.middle.1
  have hlater := hbefore.rest
  have hstep := hbefore.middle.2.1
  rw [haction] at hstep
  have hsent : v.after.tx = .sent probe todo ∧ v.after.now = v.before.now := by
    have hcases := NodeStep.of_step hstep
    generalize v.after = s', v.emitted = es at hcases ⊢
    cases hcases with
    | sent htx' =>
      rw [htx] at htx'
      obtain ⟨rfl, rfl⟩ := TxTask.sending.inj htx'
      exact ⟨rfl, rfl⟩
  rcases run_sent hsent.1 hlater with hahead | ⟨n, hn, hin⟩
  · exact .inl ⟨todo, hahead⟩
  · refine .inr ⟨n, ?_, ?_⟩
    · rw [hsent.2] at hn
      exact hprompt.trans (Nat.add_le_add_right hn _)
    · rw [events_append, events_cons, tally_append, tally_append, Multiset.mem_add,
        Multiset.mem_add]
      exact .inr (.inr hin)

private theorem no_entry_of_sent {ts : List NodeTurn} {s : NodeState} {probe : Probe}
    {todo : List Target}
    (hrun : (node parse cfg).Run {} ts s) (hfew : (drawn (events ts)).length < 2 ^ 32)
    (htx : s.tx = .sent probe todo) {t : Token} (ht : t ∈ tally Event.inserted? (events ts)) :
    t.1 ≠ probe.seq := by
  intro hseq
  have hnodup := nodup_issued hrun hfew
  rw [htx] at hnodup
  have hused := Multiset.mem_map_of_mem Sigma.fst ht
  rw [hseq] at hused
  exact Multiset.disjoint_left.mp (Multiset.nodup_add.mp hnodup).2.2 hused
    (Multiset.mem_singleton_self probe.seq)

/-- The response of a turn takes the token, or an earlier one has. -/
def TakenBy (before : List NodeTurn) (u : NodeTurn) (resp : TimeResponse) (t : Token) : Prop :=
  (∃ e, u.after.rx = .matched e ∧ e.resp = resp ∧ e.token = t) ∨
    t ∈ tally Event.sampled? (events before)

/-- A prompt reply whose entry is in the accounts is taken, unless another server's response
has used the entry up. -/
private theorem PromptReply.taken {ts before : List NodeTurn} {u : NodeTurn} {probe : Probe}
    {resp : TimeResponse} {n : Instant} (h : PromptReply ts probe resp before u)
    (hbefore : (node parse cfg).Run {} before u.before)
    (hstep : (node parse cfg).step u.before u.action = some (u.after, u.emitted))
    (hfew : (drawn (events before)).length < 2 ^ 32)
    (hn : u.before.now ≤ n + responseTimeout)
    (hin : (⟨probe.seq, probe.pending n⟩ : Token) ∈ tally Event.inserted? (events before))
    (hclean : ∀ t other, .mismatched t other ∈ events before → t.1 ≠ probe.seq) :
    TakenBy before u resp ⟨probe.seq, probe.pending n⟩ := by
  rcases place_of_inserted hbefore hfew hin with hsome | htim | hsam | ⟨other, hmem⟩
  · left
    rw [← h.seq] at hsome
    rcases h.lookedUp.after hstep with ⟨_, hno⟩ | ⟨src, t4, req, hsome', _, hafter⟩
    · exact absurd h.server.symm (hno _ hsome)
    · rw [hsome] at hsome'
      obtain rfl := Option.some.inj hsome'
      refine ⟨_, hafter, rfl, ?_⟩
      rw [Exchange.token, h.seq]
  · have hpast := (run_clocked hbefore).expired _ htim
    exact absurd hn (Nat.not_le.mpr hpast)
  · rw [h.lookedUp.inHand, zero_add] at hsam
    exact .inr hsam
  · exact absurd rfl (hclean _ other hmem)

private theorem TakenBy.settled {before after : List NodeTurn} {s : NodeState} {u : NodeTurn}
    {resp : TimeResponse} {t : Token} (h : TakenBy before u resp t)
    (hrun : (node parse cfg).Run {} (before ++ u :: after) s) :
    t ∈ s.rx.inHand + tally Event.sampled? (events (before ++ u :: after)) := by
  have hkeeps := (run_keeps (events (before ++ [u])) hrun.rest).2
  rw [← events_append, List.append_assoc, List.singleton_append] at hkeeps
  apply Multiset.mem_of_le hkeeps
  apply Multiset.mem_add.mpr
  rcases h with ⟨e, hafter, _, htoken⟩ | hsam
  · left
    rw [hafter, ← htoken]
    exact Multiset.mem_singleton_self _
  · right
    rw [events_append, tally_append]
    exact Multiset.mem_add.mpr (.inl hsam)

/-- A prompt reply is recorded exactly if the transmit task has put its probe into the map by
the time it is looked up, and no response from another server has taken it out again. -/
theorem prompt_reply_recorded_iff {ts before : List NodeTurn} {s : NodeState} {u : NodeTurn}
    {probe : Probe} {resp : TimeResponse} (hrun : (node parse cfg).Run {} ts s)
    (hfew : (drawn (events ts)).length < 2 ^ 32) (h : PromptReply ts probe resp before u) :
    RecordedAsSample ts s probe resp before u ↔
      (∀ todo, u.before.tx ≠ .sent probe todo) ∧
      ∀ t other, .mismatched t other ∈ events before → t.1 ≠ probe.seq := by
  have hinserted := h.inserted hrun
  obtain ⟨after, rfl⟩ := h.turn
  have hsplit : before ++ [u] ++ after = before ++ u :: after := by simp
  rw [hsplit] at hrun hfew ⊢
  obtain ⟨hbefore, hstep, hturn⟩ := hrun.middle
  have hfew' : (drawn (events before)).length < 2 ^ 32 := few_drawn_of_append hfew
  constructor
  · rintro ⟨htaken, hrecorded, _⟩
    constructor
    · intro todo htx
      rcases htaken with ⟨e, hafter, _⟩ | hsampled
      · rcases h.lookedUp.after hstep with ⟨hlisten, _⟩ | ⟨src, t4, req, hsome, _⟩
        · rw [hlisten] at hafter
          contradiction
        · exact no_entry_of_sent hbefore hfew' htx (inserted_of_pending hbefore hsome) h.seq
      · obtain ⟨t, ht, hseq⟩ := Multiset.mem_map.mp hsampled
        have hin := inserted_of_settled hbefore (.inr (.inl (Multiset.mem_add.mpr (.inr ht))))
        exact no_entry_of_sent hbefore hfew' htx hin hseq
    · intro t other hmem hseq
      obtain ⟨t', ht', hseq'⟩ := Multiset.mem_map.mp hrecorded
      have hmem' : .mismatched t other ∈ events (before ++ u :: after) := mem_events_earlier hmem
      obtain rfl := inserted_unique hrun hfew
        (inserted_of_settled hrun (.inr (.inr ⟨other, hmem'⟩)))
        (inserted_of_settled hrun (.inr (.inl ht'))) (hseq.trans hseq'.symm)
      exact (not_settled_of_mismatched hrun hfew hmem').2 ht'
  · rintro ⟨hahead, hclean⟩
    rcases hinserted with ⟨todo, htx⟩ | ⟨n, hn, hin⟩
    · exact absurd htx (hahead todo)
    have htaken := h.taken hbefore hstep hfew' hn hin hclean
    have hsettled := htaken.settled hrun
    refine ⟨?_, Multiset.mem_map_of_mem Sigma.fst hsettled, ?_⟩
    · rcases htaken with ⟨e, hafter, hresp, _⟩ | hsam
      · exact .inl ⟨e, hafter, hresp⟩
      · exact .inr (Multiset.mem_map_of_mem Sigma.fst hsam)
    · intro hmem
      obtain ⟨t, ht, hseq⟩ := Multiset.mem_map.mp hmem
      obtain rfl := inserted_unique hrun hfew (inserted_of_settled hrun (.inl ht))
        (inserted_of_settled hrun (.inr (.inl hsettled))) hseq
      exact not_timedOut_of_sampled hrun hfew hsettled ht

/-- One turn of a concrete run. -/
def demoTurn (as : List Action) (i : Nat) : NodeTurn :=
  ((node demoParse demoConfig).turnsOf {} as).getD i ⟨{}, .rxTake, [], {}⟩

/-- The first probe of the concrete node. -/
def firstProbe : Probe := { seq := 1, target := ⟨2, ⟨[10, 0, 0, 2], 32002⟩⟩, t1 := 1000 }

theorem prompt_reply_recorded_demo :
    RecordedAsSample ((node demoParse demoConfig).turnsOf {} demoSample)
      ((node demoParse demoConfig).stateAfter {} demoSample) firstProbe
      (demoResponse 2 1000 1100 1200)
      (((node demoParse demoConfig).turnsOf {} demoSample).take 6) (demoTurn demoSample 6) := by
  refine (prompt_reply_recorded_iff (Run.of_actions demoSample_runs) (by decide) ?_).mpr ⟨?_, ?_⟩
  · refine ⟨⟨_, rfl⟩, ⟨_, _, rfl, rfl⟩, rfl, rfl, ?_⟩
    exact ⟨demoTurn demoSample 2, .tail _ (.tail _ (.head _)), ⟨_, rfl, rfl⟩, by decide⟩
  · intro todo htx
    have hprobing : (demoTurn demoSample 6).before.tx = .probing [] := rfl
    rw [hprobing] at htx
    contradiction
  · intro t other hmem
    have hlost : t ∈ tally Event.lost? (events
        (((node demoParse demoConfig).turnsOf {} demoSample).take 6)) :=
      mem_tally.mpr ⟨_, hmem, rfl⟩
    exact absurd hlost (Multiset.notMem_zero t)

/-- The reply is looked up between `send_to` and the insertion of the entry; the next sweep
then counts a timeout. -/
def demoRace : List Action :=
  [.txTick, .txDraw (some 1000), .txSend true] ++
    demoReceive ⟨[10, 0, 0, 2], 32002⟩ (demoResponse 2 1000 1100 1200) 1300 ++
    [.txInsert, .txCleanup, .txSweep [], .advance 1000000000, .txTick, .txDraw none, .txCleanup,
      .txSweep [⟨1, { peerId := 2, t1Ns := 1000, sentAt := 0 }⟩], .txExpire 5000]

private theorem demoRace_runs :
    ((node demoParse demoConfig).exec {} demoRace).isSome = true := by rfl

theorem prompt_reply_lost :
    ¬ ∀ ts s, (node demoParse demoConfig).Run {} ts s → ∀ probe resp before u,
      PromptReply ts probe resp before u → RecordedAsSample ts s probe resp before u := by
  intro hrecorded
  have hrace := hrecorded _ _ (Run.of_actions demoRace_runs) firstProbe
    (demoResponse 2 1000 1100 1200) (((node demoParse demoConfig).turnsOf {} demoRace).take 5)
    (demoTurn demoRace 5)
    ⟨⟨_, rfl⟩, ⟨_, _, rfl, rfl⟩, rfl, rfl, demoTurn demoRace 2, .tail _ (.tail _ (.head _)),
      ⟨_, rfl, rfl⟩, by decide⟩
  exact hrace.2.2 (by decide)

/-- A response of the probed peer is looked up after the timeout of its probe has passed. -/
structure LateReply (ts : List NodeTurn) (t : Token) (resp : TimeResponse)
    (before : List NodeTurn) (u : NodeTurn) : Prop where
  turn : before ++ [u] <+: ts
  lookedUp : LooksUp u resp
  seq : resp.header.seq = t.1
  server : t.2.peerId = resp.serverId
  inserted : t ∈ tally Event.inserted? (events before)
  late : t.2.sentAt + responseTimeout < u.before.now

/-- The response is not taken as a sample, and a probe without an earlier sample has exactly
one timeout, written or about to be. -/
def CountedAsTimeout (ts : List NodeTurn) (s : NodeState) (t : Token) (before : List NodeTurn)
    (u : NodeTurn) : Prop :=
  u.after.rx = .listening ∧ (t ∉ tally Event.sampled? (events before) →
    (s.tx.inHand + tally Event.timedOut? (events ts)).count t = 1)

private theorem LateReply.no_entry {ts before : List NodeTurn} {u : NodeTurn} {t : Token}
    {resp : TimeResponse} (h : LateReply ts t resp before u)
    (hbefore : (node parse cfg).Run {} before u.before)
    (hstep : (node parse cfg).step u.before u.action = some (u.after, u.emitted))
    (hfew : (drawn (events before)).length < 2 ^ 32) (hlisten : u.after.rx = .listening) :
    u.before.pending.lookup t.1 = none := by
  by_contra hsome
  obtain ⟨req, hsome⟩ := Option.ne_none_iff_exists'.mp hsome
  have hreq := inserted_unique hbefore hfew (inserted_of_pending hbefore hsome) h.inserted rfl
  have hserver : req.peerId = resp.serverId := by
    have hpeer := congrArg (fun t : Token => t.2.peerId) hreq
    exact hpeer.trans h.server
  have hlookup := h.lookedUp.after hstep
  rw [h.seq] at hlookup
  rcases hlookup with ⟨_, hno⟩ | ⟨_, _, _, _, _, hafter⟩
  · exact hno req hsome hserver
  · rw [hlisten] at hafter
    contradiction

private theorem LateReply.expired {ts before : List NodeTurn} {u : NodeTurn} {t : Token}
    {resp : TimeResponse} (h : LateReply ts t resp before u)
    (hbefore : (node parse cfg).Run {} before u.before)
    (hfew : (drawn (events before)).length < 2 ^ 32) (hnone : u.before.pending.lookup t.1 = none)
    (hclean : ∀ other, .mismatched t other ∉ events before)
    (hsampled : t ∉ tally Event.sampled? (events before)) :
    t ∈ u.before.tx.inHand + tally Event.timedOut? (events before) := by
  rcases place_of_inserted hbefore hfew h.inserted with hsome | htim | hsam | ⟨other, hmem⟩
  · rw [hnone] at hsome
    contradiction
  · exact htim
  · rw [h.lookedUp.inHand, zero_add] at hsam
    exact absurd hsam hsampled
  · exact absurd hmem (hclean other)

private theorem timedOut_once {before after : List NodeTurn} {s s' : NodeState} {t : Token}
    (hrun : (node parse cfg).Run {} (before ++ after) s')
    (hafter : (node parse cfg).Run s after s')
    (hfew : (drawn (events (before ++ after))).length < 2 ^ 32)
    (hexpired : t ∈ s.tx.inHand + tally Event.timedOut? (events before)) :
    (s'.tx.inHand + tally Event.timedOut? (events (before ++ after))).count t = 1 := by
  have hkeeps := (run_keeps (events before) hafter).1
  rw [← events_append] at hkeeps
  have hboth := (Multiset.nodup_add.mp (nodup_outcomes hrun hfew)).1
  exact Multiset.count_eq_one_of_mem (Multiset.nodup_add.mp hboth).1
    (Multiset.mem_of_le hkeeps hexpired)

/-- A late reply counts as a timeout exactly if its probe has left the pending map by then, and
not through a response from another server. -/
theorem late_reply_timed_out_iff {ts before : List NodeTurn} {s : NodeState} {u : NodeTurn}
    {t : Token} {resp : TimeResponse} (hrun : (node parse cfg).Run {} ts s)
    (hfew : (drawn (events ts)).length < 2 ^ 32) (h : LateReply ts t resp before u) :
    CountedAsTimeout ts s t before u ↔
      u.before.pending.lookup t.1 = none ∧ ∀ other, .mismatched t other ∉ events before := by
  obtain ⟨after, rfl⟩ := h.turn
  have hsplit : before ++ [u] ++ after = before ++ u :: after := by simp
  rw [hsplit] at hrun hfew ⊢
  obtain ⟨hbefore, hstep, _⟩ := hrun.middle
  have hfew' : (drawn (events before)).length < 2 ^ 32 := few_drawn_of_append hfew
  constructor
  · rintro ⟨hlisten, hcount⟩
    refine ⟨h.no_entry hbefore hstep hfew' hlisten, ?_⟩
    intro other hmem
    have hsampled : t ∉ tally Event.sampled? (events before) := fun hsam =>
      (not_settled_of_mismatched hbefore hfew' hmem).2 (Multiset.mem_add.mpr (.inr hsam))
    apply (not_settled_of_mismatched hrun hfew (mem_events_earlier hmem)).1
    rw [← Multiset.count_pos, hcount hsampled]
    exact Nat.one_pos
  · rintro ⟨hnone, hclean⟩
    constructor
    · have hlookup := h.lookedUp.after hstep
      rw [h.seq] at hlookup
      rcases hlookup with ⟨hlisten, _⟩ | ⟨_, _, _, hsome, _, _⟩
      · exact hlisten
      · rw [hnone] at hsome
        contradiction
    · intro hsampled
      exact timedOut_once hrun hrun.resume hfew (h.expired hbefore hfew' hnone hclean hsampled)

/-- A probe swept after its timeout, whose reply arrives after that. -/
def demoSwept : List Action :=
  demoProbe ++ [.txCleanup, .txSweep [], .advance 1000000000, .txTick, .txDraw none, .txCleanup,
    .txSweep [⟨1, { peerId := 2, t1Ns := 1000, sentAt := 0 }⟩]] ++
    demoReceive ⟨[10, 0, 0, 2], 32002⟩ (demoResponse 2 1000 1100 1200) 1300

private theorem demoSwept_runs :
    ((node demoParse demoConfig).exec {} demoSwept).isSome = true := by rfl

/-- The token under which the concrete node's first probe is filed. -/
def firstToken : Token := ⟨1, { peerId := 2, t1Ns := 1000, sentAt := 0 }⟩

theorem late_reply_timed_out_demo :
    CountedAsTimeout ((node demoParse demoConfig).turnsOf {} demoSwept)
      ((node demoParse demoConfig).stateAfter {} demoSwept) firstToken
      (((node demoParse demoConfig).turnsOf {} demoSwept).take 13) (demoTurn demoSwept 13) := by
  have hlate : LateReply ((node demoParse demoConfig).turnsOf {} demoSwept) firstToken
      (demoResponse 2 1000 1100 1200)
      (((node demoParse demoConfig).turnsOf {} demoSwept).take 13) (demoTurn demoSwept 13) :=
    ⟨⟨_, rfl⟩, ⟨_, _, rfl, rfl⟩, rfl, rfl, by decide, by decide⟩
  refine (late_reply_timed_out_iff (Run.of_actions demoSwept_runs) (by decide) hlate).mpr ⟨?_, ?_⟩
  · decide
  · intro other hmem
    have hlost : firstToken ∈ tally Event.lost? (events
        (((node demoParse demoConfig).turnsOf {} demoSwept).take 13)) :=
      mem_tally.mpr ⟨_, hmem, rfl⟩
    exact absurd hlost (Multiset.notMem_zero _)

/-- The reply comes 600 ms after the probe, between two sweeps, and is recorded. -/
def demoLate : List Action :=
  demoProbe ++ [.txCleanup, .txSweep [], .advance 600000000] ++
    demoReceive ⟨[10, 0, 0, 2], 32002⟩ (demoResponse 2 1000 1100 1200) 1300 ++ demoStore

private theorem demoLate_runs :
    ((node demoParse demoConfig).exec {} demoLate).isSome = true := by rfl

theorem late_reply_sampled :
    ¬ ∀ ts s, (node demoParse demoConfig).Run {} ts s → ∀ t resp before u,
      LateReply ts t resp before u → CountedAsTimeout ts s t before u := by
  intro hcounted
  have hlate := hcounted _ _ (Run.of_actions demoLate_runs) firstToken
    (demoResponse 2 1000 1100 1200) (((node demoParse demoConfig).turnsOf {} demoLate).take 9)
    (demoTurn demoLate 9) ⟨⟨_, rfl⟩, ⟨_, _, rfl, rfl⟩, rfl, rfl, by decide, by decide⟩
  have htaken : (demoTurn demoLate 9).after.rx ≠ .listening := by decide
  exact htaken hlate.1

end Zeitpeer
