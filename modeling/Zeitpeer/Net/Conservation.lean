import Zeitpeer.Net.Outcomes

/-!
# Rejected responses and lost probes

`handle_response` takes the entry out of the pending map before it compares the server id. A
response from another server for a pending number is therefore rejected with the entry gone,
and that branch is, beside inserting over a number still pending, the only way a probe leaves
the accounts. Both halves are exact: a rejection changes the maps, and a run stops balancing,
precisely where one of these steps is taken.
-/

namespace Zeitpeer

open Framework Machine

variable {parse : String → UInt16 → Option SocketAddr} {cfg : Config}

/-- The datagram is a response for a pending number from another server than the one probed. -/
def Mismatch (pending : PendingMap) (buf : List UInt8) : Prop :=
  ∃ resp req, rxDispatch buf = .response resp ∧
    pending.lookup resp.header.seq = some req ∧ req.peerId ≠ resp.serverId

private theorem takePending_orphan {pending : PendingMap} {resp : TimeResponse}
    (h : pending.lookup resp.header.seq = none) :
    takePending pending resp = (.orphan, pending) := by
  simp [takePending, h]

private theorem takePending_mismatched {pending : PendingMap} {resp : TimeResponse}
    {req : PendingRequest} (h : pending.lookup resp.header.seq = some req)
    (hid : req.peerId ≠ resp.serverId) :
    takePending pending resp = (.mismatched req, pending.erase resp.header.seq) := by
  simp [takePending, h, hid]

private theorem takePending_matched {pending : PendingMap} {resp : TimeResponse}
    {req : PendingRequest} (h : pending.lookup resp.header.seq = some req)
    (hid : req.peerId = resp.serverId) :
    takePending pending resp = (.matched req, pending.erase resp.header.seq) := by
  simp [takePending, h, hid]

private theorem erase_ne_self {pending : PendingMap} {seq : UInt32} {req : PendingRequest}
    (h : pending.lookup seq = some req) : pending.erase seq ≠ pending := by
  intro heq
  have hgone := AList.lookup_erase seq pending
  rw [heq, h] at hgone
  contradiction

/-- A datagram that yields no sample leaves both maps as they were, unless it is a mismatch;
then an entry is gone. -/
private theorem handleResponse_rejected (src : SocketAddr) (buf : List UInt8) (t4 : UInt64)
    (pending : PendingMap) (runtime : RuntimeMap)
    (hreject : (handleResponse cfg src buf t4 pending runtime).exchange = none) :
    ((handleResponse cfg src buf t4 pending runtime).pending = pending ∧
      (handleResponse cfg src buf t4 pending runtime).runtime = runtime) ↔
      ¬ Mismatch pending buf := by
  cases hdispatch : rxDispatch buf with
  | drop
  | request req => simp [handleResponse, Mismatch, hdispatch]
  | response resp =>
    cases hlook : pending.lookup resp.header.seq with
    | none =>
      have hkeep :
          handleResponse cfg src buf t4 pending runtime = ⟨pending, runtime, none, []⟩ := by
        simp only [handleResponse, hdispatch, takePending_orphan hlook]
      have hno : ¬ Mismatch pending buf := by
        rintro ⟨resp', req, hresp', hsome, _⟩
        rw [hdispatch] at hresp'
        obtain rfl := Incoming.response.inj hresp'
        rw [hlook] at hsome
        contradiction
      rw [hkeep]
      exact ⟨fun _ => hno, fun _ => ⟨rfl, rfl⟩⟩
    | some req =>
      by_cases hid : req.peerId = resp.serverId
      · simp [handleResponse, hdispatch, takePending_matched hlook hid] at hreject
      · have hdrop : handleResponse cfg src buf t4 pending runtime =
            ⟨pending.erase resp.header.seq, runtime, none, []⟩ := by
          simp only [handleResponse, hdispatch, takePending_mismatched hlook hid]
        rw [hdrop]
        constructor
        · intro hsame
          exact absurd hsame.1 (erase_ne_self hlook)
        · intro hno
          exact absurd ⟨resp, req, hdispatch, hlook, hid⟩ hno

/-- The node's receive task, left alone, does what `handle_response` does. -/
theorem handleResponse_run (s : NodeState) (src : SocketAddr) (datagram : List UInt8)
    (t4 : UInt64) (hrx : s.rx = .listening)
    (hreq : ∀ req, rxDispatch (datagram.take MAX_PACKET) ≠ .request req) :
    ∃ ts s', (node parse cfg).Run s ts s' ∧ s'.rx = .listening ∧
      s'.pending =
        (handleResponse cfg src (datagram.take MAX_PACKET) t4 s.pending s.runtime).pending ∧
      s'.runtime =
        (handleResponse cfg src (datagram.take MAX_PACKET) t4 s.pending s.runtime).runtime ∧
      (events ts).filterMap (fun | .tsAdd w _ => some w | _ => none) =
        (handleResponse cfg src (datagram.take MAX_PACKET) t4 s.pending s.runtime).writes := by
  cases hdispatch : rxDispatch (datagram.take MAX_PACKET) with
  | request req => exact absurd hdispatch (hreq req)
  | drop =>
    have hexec : (node parse cfg).exec s [.rxRecv src datagram] =
        some ([⟨s, .rxRecv src datagram, [], s⟩], s) := by
      simp [exec, node, nodeStep, hrx, hdispatch]
    exact ⟨_, _, Run.of_exec hexec, by simp [handleResponse, hdispatch, hrx]⟩
  | response resp =>
    cases hlook : s.pending.lookup resp.header.seq with
    | none =>
      have hexec : ((node parse cfg).exec s
          [.rxRecv src datagram, .rxReadT4 (some t4) 0, .rxTake]).isSome := by
        simp [exec, node, nodeStep, hrx, hdispatch, takePending_orphan hlook]
      refine ⟨_, _, Run.of_actions hexec, ?_⟩
      simp [turnsOf, stateAfter, exec, node, nodeStep, hrx, hdispatch, takePending_orphan hlook,
        handleResponse]
    | some req =>
      by_cases hid : req.peerId = resp.serverId
      · have hexec : ((node parse cfg).exec s [.rxRecv src datagram, .rxReadT4 (some t4) 0,
            .rxTake, .rxRuntime, .rxStore, .rxStore, .rxStore, .rxStore]).isSome := by
          simp [exec, node, nodeStep, hrx, hdispatch, takePending_matched hlook hid, sampleWrites]
        refine ⟨_, _, Run.of_actions hexec, ?_⟩
        simp [turnsOf, stateAfter, exec, node, nodeStep, hrx, hdispatch,
          takePending_matched hlook hid, handleResponse, sampleWrites]
      · have hexec : ((node parse cfg).exec s
            [.rxRecv src datagram, .rxReadT4 (some t4) 0, .rxTake]).isSome := by
          simp [exec, node, nodeStep, hrx, hdispatch, takePending_mismatched hlook hid]
        refine ⟨_, _, Run.of_actions hexec, ?_⟩
        simp [turnsOf, stateAfter, exec, node, nodeStep, hrx, hdispatch,
          takePending_mismatched hlook hid, handleResponse]

/-- The two steps that let a probe go: a mismatched response takes its entry, or an insertion
replaces it. -/
def LosesProbe (s : NodeState) : Action → Prop
  | .rxTake => ∃ src resp t4 req, s.rx = .responseStamped src resp t4 ∧
      s.pending.lookup resp.header.seq = some req ∧ req.peerId ≠ resp.serverId
  | .txInsert => ∃ probe todo old, s.tx = .sent probe todo ∧
      s.pending.lookup probe.seq = some old
  | _ => False

/-- The probes inserted so far are those recorded as samples, recorded as timeouts, still
pending, or in the hands of the task about to record them. -/
def Conserved (ts : List NodeTurn) (s : NodeState) : Prop :=
  tally Event.inserted? (events ts) =
    s.held + tally Event.sampled? (events ts) + tally Event.timedOut? (events ts)

private theorem lost_ne_zero {es : List Event} {e : Event} {t : Token} (he : e ∈ es)
    (ht : e.lost? = some t) : tally Event.lost? es ≠ 0 := by
  intro hzero
  have hmem : t ∈ tally Event.lost? es := mem_tally.mpr ⟨e, he, ht⟩
  rw [hzero] at hmem
  exact Multiset.notMem_zero t hmem

private theorem NodeStep.lost_iff {s s' : NodeState} {a : Action} {es : List Event}
    (hstep : NodeStep parse cfg s a s' es) : tally Event.lost? es = 0 ↔ ¬ LosesProbe s a := by
  cases hstep with
  | overwrite htx hold =>
    constructor
    · intro hzero
      exact absurd hzero (lost_ne_zero (List.mem_cons_of_mem _ (List.mem_singleton_self _)) rfl)
    · intro hno
      exact absurd ⟨_, _, _, htx, hold⟩ hno
  | mismatch hrx hsome hid =>
    constructor
    · intro hzero
      exact absurd hzero (lost_ne_zero (List.mem_singleton_self _) rfl)
    · intro hno
      exact absurd ⟨_, _, _, _, hrx, hsome, hid⟩ hno
  | insert htx hfresh =>
    refine ⟨?_, fun _ => rfl⟩
    rintro - ⟨probe, todo, old, htx', hold⟩
    rw [htx] at htx'
    obtain ⟨rfl, rfl⟩ := TxTask.sent.inj htx'
    rw [hfresh] at hold
    contradiction
  | orphan hrx hnone =>
    refine ⟨?_, fun _ => rfl⟩
    rintro - ⟨src, resp, t4, req, hrx', hsome, _⟩
    rw [hrx] at hrx'
    obtain ⟨rfl, rfl, rfl⟩ := RxTask.responseStamped.inj hrx'
    rw [hnone] at hsome
    contradiction
  | «match» hrx hsome hid =>
    refine ⟨?_, fun _ => rfl⟩
    rintro - ⟨src, resp, t4, req, hrx', hsome', hid'⟩
    rw [hrx] at hrx'
    obtain ⟨rfl, rfl, rfl⟩ := RxTask.responseStamped.inj hrx'
    rw [hsome] at hsome'
    obtain rfl := Option.some.inj hsome'
    exact hid' hid
  | _ => exact ⟨fun _ h => h, fun _ => rfl⟩

private theorem conserved_iff_lost {ts : List NodeTurn} {s : NodeState}
    (hrun : (node parse cfg).Run {} ts s) :
    Conserved ts s ↔ tally Event.lost? (events ts) = 0 := by
  have hbalance := run_balance hrun
  rw [Conserved, hbalance]
  exact add_eq_left

/-- A step that loses nothing keeps the run balanced, and no later step repairs a loss. -/
theorem run_lost_iff {ts : List NodeTurn} {s : NodeState} (hrun : (node parse cfg).Run {} ts s) :
    tally Event.lost? (events ts) = 0 ↔ ∀ t ∈ ts, ¬ LosesProbe t.before t.action := by
  refine hrun.invariant (I := fun ts _ =>
    tally Event.lost? (events ts) = 0 ↔ ∀ t ∈ ts, ¬ LosesProbe t.before t.action) (by simp) ?_
  intro ts s a s' es _ hbefore hstep
  have hlost := (NodeStep.of_step hstep).lost_iff
  rw [events_append, events_singleton, tally_append,
    add_eq_zero_iff_of_nonneg (Multiset.zero_le _) (Multiset.zero_le _), hbefore, hlost]
  simp only [List.mem_append, List.mem_singleton]
  constructor
  · rintro ⟨hall, hlast⟩ t (ht | rfl)
    · exact hall t ht
    · exact hlast
  · intro hall
    exact ⟨fun t ht => hall t (.inl ht), hall _ (.inr rfl)⟩

/-- At a reachable state a rejected datagram leaves the maps as they were exactly if it is no
mismatch, and the accounts balance in every state of the run exactly if no step of it loses a
probe. -/
theorem rejection_harmless_iff {ts : List NodeTurn} {s : NodeState}
    (hrun : (node parse cfg).Run {} ts s) :
    (∀ src buf t4, (handleResponse cfg src buf t4 s.pending s.runtime).exchange = none →
      (((handleResponse cfg src buf t4 s.pending s.runtime).pending = s.pending ∧
        (handleResponse cfg src buf t4 s.pending s.runtime).runtime = s.runtime) ↔
        ¬ Mismatch s.pending buf)) ∧
    ((∀ us s', us <+: ts → (node parse cfg).Run {} us s' → Conserved us s') ↔
      ∀ t ∈ ts, ¬ LosesProbe t.before t.action) := by
  refine ⟨fun src buf t4 => handleResponse_rejected src buf t4 s.pending s.runtime, ?_⟩
  constructor
  · intro hall
    have hend := hall ts s List.prefix_rfl hrun
    exact (run_lost_iff hrun).mp ((conserved_iff_lost hrun).mp hend)
  · rintro hno us s' ⟨rest, rfl⟩ hprefix
    rw [conserved_iff_lost hprefix, run_lost_iff hprefix]
    exact fun t ht => hno t (List.mem_append_left rest ht)

/-- What a rejection would do if it changed nothing. -/
def RejectionHarmless (cfg : Config) (ts : List NodeTurn) (s : NodeState) : Prop :=
  (∀ src buf t4, (handleResponse cfg src buf t4 s.pending s.runtime).exchange = none →
    (handleResponse cfg src buf t4 s.pending s.runtime).pending = s.pending ∧
      (handleResponse cfg src buf t4 s.pending s.runtime).runtime = s.runtime) ∧
  Conserved ts s

/-- The first probe's number, answered in the name of another server. -/
def demoMismatch : List Action :=
  demoProbe ++ demoReceive ⟨[10, 0, 0, 3], 32003⟩ (demoResponse 3 1000 1100 1200) 1300

private theorem demoMismatch_runs :
    ((node demoParse demoConfig).exec {} demoMismatch).isSome = true := by
  rfl

theorem rejection_not_harmless :
    ¬ ∀ ts s, (node demoParse demoConfig).Run {} ts s → RejectionHarmless demoConfig ts s := by
  intro hharmless
  have hconserved := (hharmless _ _ (Run.of_actions demoMismatch_runs)).2
  have hlost := (conserved_iff_lost (Run.of_actions demoMismatch_runs)).mp hconserved
  exact absurd hlost (by decide)

theorem rejection_harmless_demo :
    Conserved ((node demoParse demoConfig).turnsOf {} demoSample)
      ((node demoParse demoConfig).stateAfter {} demoSample) := by
  have hrun := Run.of_actions demoSample_runs
  have hnone := (run_lost_iff hrun).mp (by decide)
  exact (rejection_harmless_iff hrun).2.mpr hnone _ _ List.prefix_rfl hrun

end Zeitpeer
