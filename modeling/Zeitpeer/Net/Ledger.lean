import Zeitpeer.Net.NodeStep
import Mathlib.Algebra.Order.Group.Multiset
import Mathlib.Tactic.Abel

/-!
# Where every inserted probe is

A probe that entered the pending map is at every later moment in exactly one place: still in
the map, in the hands of the task that took it out, recorded as a sample, recorded as a
timeout, or lost. The balance is an equation between multisets, so it neither forgets nor
duplicates a probe, and it is derived from the same balance for one step.
-/

namespace Zeitpeer

open Framework Machine

/-- The probe that a write records as a sample: the offset write of a matched response. -/
def sampleOf (w : TsAdd) (c : Cause) : Option Token :=
  match w.key, c with
  | .peer _ .offset, .reply e => some e.token
  | _, _ => none

/-- The probe that a write records as a timeout. -/
def timeoutOf (w : TsAdd) (c : Cause) : Option Token :=
  match w.key, c with
  | .peer _ .timeouts, .expiry t => some t
  | _, _ => none

def Event.inserted? : Event → Option Token
  | .inserted t => some t
  | _ => none

def Event.sampled? : Event → Option Token
  | .tsAdd w c => sampleOf w c
  | _ => none

def Event.timedOut? : Event → Option Token
  | .tsAdd w c => timeoutOf w c
  | _ => none

/-- Probes that left the map without being recorded. -/
def Event.lost? : Event → Option Token
  | .displaced t => some t
  | .mismatched t _ => some t
  | _ => none

/-- The probes that a list of events concerns under one of the readings above. -/
def tally (f : Event → Option Token) (es : List Event) : Multiset Token :=
  (es.filterMap f : List Token)

/-- Expired requests whose timeout is still to be written. -/
def TxTask.inHand : TxTask → Multiset Token
  | .expiring ts => (ts : Multiset Token)
  | _ => 0

/-- A matched request whose sample is still to be written. -/
def RxTask.inHand : RxTask → Multiset Token
  | .matched e => {e.token}
  | .storing e ws => (ws.filterMap fun w => sampleOf w (.reply e) : List Token)
  | _ => 0

/-- Probes that are neither recorded nor lost. -/
def NodeState.held (s : NodeState) : Multiset Token :=
  Table.contents s.pending + s.tx.inHand + s.rx.inHand

@[simp] theorem tally_nil (f : Event → Option Token) : tally f [] = 0 := rfl

theorem tally_cons (f : Event → Option Token) (e : Event) (es : List Event) :
    tally f (e :: es) = ((f e).toList : Multiset Token) + tally f es := by
  cases h : f e <;> simp [tally, h]

@[simp] theorem tally_append (f : Event → Option Token) (es fs : List Event) :
    tally f (es ++ fs) = tally f es + tally f fs := by
  simp [tally, ← Multiset.coe_add]

theorem mem_tally {f : Event → Option Token} {es : List Event} {t : Token} :
    t ∈ tally f es ↔ ∃ e ∈ es, f e = some t := by
  simp [tally]

theorem expiring_inHand (ts : List Token) :
    (if ts.isEmpty then TxTask.waiting else .expiring ts).inHand = (ts : Multiset Token) := by
  cases ts <;> rfl

theorem storing_inHand (e : Exchange) (ws : List TsAdd) :
    (if ws.isEmpty then RxTask.listening else .storing e ws).inHand =
      (ws.filterMap fun w => sampleOf w (.reply e) : List Token) := by
  cases ws <;> rfl

/-- Of the four writes of a matched response one records the sample. -/
theorem sampleWrites_inHand (cfg : Config) (e : Exchange) (jitter : F64) :
    (RxTask.storing e (sampleWrites cfg e jitter)).inHand = {e.token} := rfl

@[simp] theorem timeoutOf_reply (w : TsAdd) (e : Exchange) : timeoutOf w (.reply e) = none := by
  unfold timeoutOf
  split <;> simp_all

variable {parse : String → UInt16 → Option SocketAddr} {cfg : Config}

/-- What is added and what was held is held afterwards, recorded or lost. -/
def Balanced (s s' : NodeState) (es : List Event) : Prop :=
  tally Event.inserted? es + s.held = s'.held + tally Event.sampled? es +
    tally Event.timedOut? es + tally Event.lost? es

section Actions

variable {s s' : NodeState}

private theorem balanced_silent {es : List Event} (hheld : s'.held = s.held)
    (hins : tally Event.inserted? es = 0) (hsam : tally Event.sampled? es = 0)
    (htim : tally Event.timedOut? es = 0) (hlost : tally Event.lost? es = 0) :
    Balanced s s' es := by
  rw [Balanced, hins, hsam, htim, hlost, hheld]
  simp

private theorem balanced_insert {probe : Probe} {todo : List Target} {req : PendingRequest}
    (htx : s.tx = .sent probe todo) (hfresh : s.pending.lookup probe.seq = none) :
    Balanced s { s with pending := s.pending.insert probe.seq req, tx := .probing todo }
      [.inserted ⟨probe.seq, req⟩] := by
  simp only [Balanced, NodeState.held, htx, Table.contents_insert_fresh _ hfresh]
  simp [tally_cons, Event.inserted?, Event.sampled?, Event.timedOut?, Event.lost?,
    TxTask.inHand]

private theorem balanced_overwrite {probe : Probe} {todo : List Target}
    {req old : PendingRequest} (htx : s.tx = .sent probe todo)
    (hold : s.pending.lookup probe.seq = some old) :
    Balanced s { s with pending := s.pending.insert probe.seq req, tx := .probing todo }
      [.inserted ⟨probe.seq, req⟩, .displaced ⟨probe.seq, old⟩] := by
  simp only [Balanced, NodeState.held, htx, Table.contents_insert, Table.contents_erase hold,
    ← Multiset.singleton_add]
  simp only [tally_cons, Event.inserted?, Event.sampled?, Event.timedOut?, Event.lost?,
    TxTask.inHand, Option.toList, tally_nil, Multiset.coe_singleton, Multiset.coe_nil]
  abel

private theorem balanced_sweep {now : Instant} {expired : List Token}
    (htx : s.tx = .sweeping now)
    (hperm : expired.Perm (Table.evicted (keepPending now) s.pending)) :
    Balanced s
      { s with
        pending := Table.retain (keepPending now) s.pending
        tx := if expired.isEmpty then .waiting else .expiring expired } [] := by
  have hsplit := Table.retain_add_evicted (keepPending now) s.pending
  simp only [Balanced, NodeState.held, htx, expiring_inHand, ← hsplit,
    Multiset.coe_eq_coe.mpr hperm]
  simp [TxTask.inHand]

private theorem balanced_expire {t : Token} {rest : List Token} (sys : UInt64)
    (htx : s.tx = .expiring (t :: rest)) :
    Balanced s { s with tx := if rest.isEmpty then .waiting else .expiring rest }
      [.tsAdd (timeoutWrite cfg t.2 sys) (.expiry t)] := by
  have hhand : s.tx.inHand = {t} + (rest : Multiset Token) := by
    rw [htx]
    rfl
  simp only [Balanced, NodeState.held, hhand, expiring_inHand, tally_cons, Event.inserted?,
    Event.sampled?, Event.timedOut?, Event.lost?, timeoutWrite, sampleOf, timeoutOf,
    Option.toList, tally_nil, Multiset.coe_singleton, Multiset.coe_nil]
  abel

private theorem balanced_mismatch {src : SocketAddr} {resp : TimeResponse} {t4 : UInt64}
    {req : PendingRequest} (hrx : s.rx = .responseStamped src resp t4)
    (hsome : s.pending.lookup resp.header.seq = some req) :
    Balanced s { s with pending := s.pending.erase resp.header.seq, rx := .listening }
      [.mismatched ⟨resp.header.seq, req⟩ resp] := by
  simp only [Balanced, NodeState.held, hrx, Table.contents_erase hsome, tally_cons,
    Event.inserted?, Event.sampled?, Event.timedOut?, Event.lost?, RxTask.inHand, Option.toList,
    tally_nil, Multiset.coe_singleton, Multiset.coe_nil, ← Multiset.singleton_add]
  abel

private theorem balanced_match {src : SocketAddr} {resp : TimeResponse} {t4 : UInt64}
    {req : PendingRequest} (hrx : s.rx = .responseStamped src resp t4)
    (hsome : s.pending.lookup resp.header.seq = some req) :
    Balanced s
      { s with
        pending := s.pending.erase resp.header.seq, rx := .matched { src, resp, t4, req } } [] := by
  simp only [Balanced, NodeState.held, hrx, Table.contents_erase hsome, RxTask.inHand,
    Exchange.token, tally_nil, ← Multiset.singleton_add]
  abel

private theorem balanced_store {e : Exchange} {w : TsAdd} {rest : List TsAdd}
    (hrx : s.rx = .storing e (w :: rest)) :
    Balanced s { s with rx := if rest.isEmpty then .listening else .storing e rest }
      [.tsAdd w (.reply e)] := by
  have hhand : s.rx.inHand = ((sampleOf w (.reply e)).toList : Multiset Token) +
      (rest.filterMap fun w => sampleOf w (.reply e) : List Token) := by
    rw [hrx, RxTask.inHand]
    cases hsample : sampleOf w (.reply e) <;> simp [hsample]
  simp only [Balanced, NodeState.held, hhand, storing_inHand, tally_cons, Event.inserted?,
    Event.sampled?, Event.timedOut?, Event.lost?, timeoutOf_reply, Option.toList, tally_nil,
    Multiset.coe_nil]
  abel

end Actions

private theorem NodeStep.balanced {s s' : NodeState} {a : Action} {es : List Event}
    (hstep : NodeStep parse cfg s a s' es) : Balanced s s' es := by
  cases hstep with
  | insert htx hfresh => exact balanced_insert htx hfresh
  | overwrite htx hold => exact balanced_overwrite htx hold
  | sweep htx hperm => exact balanced_sweep htx hperm
  | expire sys htx => exact balanced_expire sys htx
  | mismatch hrx hsome => exact balanced_mismatch hrx hsome
  | «match» hrx hsome => exact balanced_match hrx hsome
  | runtime hrx =>
    refine balanced_silent ?_ rfl rfl rfl rfl
    simp only [NodeState.held, hrx]
    rw [sampleWrites_inHand]
    rfl
  | store hrx => exact balanced_store hrx
  | tickIdle htx => exact balanced_silent (by simp [NodeState.held, htx]) rfl rfl rfl rfl
  | tick htx => exact balanced_silent (by simp [NodeState.held, htx, TxTask.inHand]) rfl rfl rfl rfl
  | drawFailed htx
  | drew _ htx
  | sendFailed htx
  | sent htx
  | cleanup htx =>
    exact balanced_silent (by simp [NodeState.held, htx, TxTask.inHand]) rfl rfl rfl rfl
  | recvRequest hrx
  | recvResponse hrx
  | readT2 _ _ hrx
  | readT3 _ _ hrx
  | reply hrx
  | replyFailed hrx
  | latency _ hrx
  | readT4 _ _ hrx
  | orphan hrx =>
    exact balanced_silent (by simp [NodeState.held, hrx, RxTask.inHand]) rfl rfl rfl rfl
  | advance
  | recvDrop => exact balanced_silent rfl rfl rfl rfl rfl

/-- Over a whole run every inserted probe is accounted for exactly once. -/
theorem run_balance {ts : List (Turn NodeState Action Event)} {s : NodeState}
    (hrun : (node parse cfg).Run {} ts s) :
    tally Event.inserted? (events ts) = s.held + tally Event.sampled? (events ts) +
      tally Event.timedOut? (events ts) + tally Event.lost? (events ts) := by
  refine hrun.invariant (I := fun ts s => tally Event.inserted? (events ts) =
    s.held + tally Event.sampled? (events ts) + tally Event.timedOut? (events ts) +
      tally Event.lost? (events ts)) rfl ?_
  intro ts s a s' es _ hbefore hstep
  have hturn := (NodeStep.of_step hstep).balanced
  simp only [events_append, events_singleton, tally_append]
  rw [hbefore]
  have hsum := congrArg (· + (tally Event.sampled? (events ts) +
    tally Event.timedOut? (events ts) + tally Event.lost? (events ts))) hturn
  calc _ = tally Event.inserted? es + s.held + (tally Event.sampled? (events ts) +
        tally Event.timedOut? (events ts) + tally Event.lost? (events ts)) := by abel
    _ = _ := hsum
    _ = _ := by abel

/-- Every probe that is held, recorded or lost was inserted. -/
theorem inserted_of_place {ts : List (Turn NodeState Action Event)} {s : NodeState} {t : Token}
    (hrun : (node parse cfg).Run {} ts s)
    (ht : t ∈ s.held + tally Event.sampled? (events ts) + tally Event.timedOut? (events ts) +
      tally Event.lost? (events ts)) : t ∈ tally Event.inserted? (events ts) := by
  rw [run_balance hrun]
  exact ht

theorem inserted_of_pending {ts : List (Turn NodeState Action Event)} {s : NodeState}
    {seq : UInt32} {req : PendingRequest} (hrun : (node parse cfg).Run {} ts s)
    (hlook : s.pending.lookup seq = some req) :
    (⟨seq, req⟩ : Token) ∈ tally Event.inserted? (events ts) := by
  apply inserted_of_place hrun
  simp only [NodeState.held, Multiset.mem_add]
  exact .inl (.inl (.inl (.inl (.inl (Table.mem_contents.mpr hlook)))))

end Zeitpeer
