import Zeitpeer.Framework.Account
import Zeitpeer.Net.Outcomes
import Zeitpeer.Net.Timing

/-!
# What a node sends

A node sends a datagram for two reasons. It answers requests, and it answers each of them at most
once, in the order in which they came and to the address they came from. And it probes, at the
pace of its ticker: what the ticker allows is spent pass by pass.
-/

namespace Zeitpeer

open Framework Machine

variable {parse : String → UInt16 → Option SocketAddr} {cfg : Config}

/-- The request that the receive loop takes from a datagram in this turn. -/
def asks (t : NodeTurn) : Option (SocketAddr × TimeRequest) :=
  match t.action with
  | .rxRecv src datagram =>
    match rxDispatch (datagram.take MAX_PACKET) with
    | .request req => some (src, req)
    | _ => none
  | _ => none

/-- The requests that a history received, with the addresses they came from. -/
def asked (ts : List NodeTurn) : List (SocketAddr × TimeRequest) := ts.filterMap asks

def Event.reply? : Event → Option (SocketAddr × List UInt8)
  | .replied dst payload => some (dst, payload)
  | _ => none

/-- The datagrams that answered requests, with the addresses they went to. -/
def answered (es : List Event) : List (SocketAddr × List UInt8) := es.filterMap Event.reply?

/-- A datagram that answers a request: it goes back, and echoes its number and its time. -/
def ReplyFor (cfg : Config) (sent : SocketAddr × List UInt8) (got : SocketAddr × TimeRequest) :
    Prop :=
  sent.1 = got.1 ∧ ∃ t2 t3, sent.2 = (replyTo cfg got.2 t2 t3).serialize

/-- Each datagram answers a request of its own, in the order of the requests. -/
def AnswersInOrder (cfg : Config) (sent : List (SocketAddr × List UInt8))
    (got : List (SocketAddr × TimeRequest)) : Prop :=
  ∃ served, List.Sublist served got ∧ List.Forall₂ (ReplyFor cfg) sent served

/-- The request that the receive task works on is the last one, and is not answered yet. -/
def Serving (cfg : Config) (got : List (SocketAddr × TimeRequest))
    (sent : List (SocketAddr × List UInt8)) : RxTask → Prop
  | .request src req | .requestStamped src req _ =>
    ∃ earlier, got = earlier ++ [(src, req)] ∧ AnswersInOrder cfg sent earlier
  | .replying dst resp =>
    ∃ earlier req t2 t3, got = earlier ++ [(dst, req)] ∧ resp = replyTo cfg req t2 t3 ∧
      AnswersInOrder cfg sent earlier
  | _ => AnswersInOrder cfg sent got

@[simp] theorem asked_append (ts us : List NodeTurn) : asked (ts ++ us) = asked ts ++ asked us := by
  simp [asked]

@[simp] theorem answered_append (es fs : List Event) :
    answered (es ++ fs) = answered es ++ answered fs := by
  simp [answered]

private theorem AnswersInOrder.skip {sent : List (SocketAddr × List UInt8)}
    {got : List (SocketAddr × TimeRequest)} (h : AnswersInOrder cfg sent got)
    (last : SocketAddr × TimeRequest) : AnswersInOrder cfg sent (got ++ [last]) := by
  obtain ⟨served, hsub, hall⟩ := h
  exact ⟨served, hsub.trans (List.sublist_append_left _ _), hall⟩

private theorem AnswersInOrder.answer {sent : List (SocketAddr × List UInt8)}
    {got : List (SocketAddr × TimeRequest)} (h : AnswersInOrder cfg sent got)
    {x : SocketAddr × List UInt8} {last : SocketAddr × TimeRequest} (hlast : ReplyFor cfg x last) :
    AnswersInOrder cfg (sent ++ [x]) (got ++ [last]) := by
  obtain ⟨served, hsub, hall⟩ := h
  exact ⟨served ++ [last], hsub.append (List.Sublist.refl _),
    List.rel_append hall (.cons hlast .nil)⟩

private theorem Serving.done {got : List (SocketAddr × TimeRequest)}
    {sent : List (SocketAddr × List UInt8)}
    {rx : RxTask} (h : Serving cfg got sent rx) : AnswersInOrder cfg sent got := by
  cases rx with
  | request
  | requestStamped =>
    obtain ⟨earlier, rfl, hearlier⟩ := h
    exact hearlier.skip _
  | replying =>
    obtain ⟨earlier, req, t2, t3, rfl, _, hearlier⟩ := h
    exact hearlier.skip _
  | _ => exact h

private theorem serving_quiet {ts : List NodeTurn} {t : NodeTurn} {rx : RxTask}
    (h : Serving cfg (asked ts) (answered (events ts)) rx) (hasks : asks t = none)
    (hsent : answered t.emitted = []) :
    Serving cfg (asked (ts ++ [t])) (answered (events (ts ++ [t]))) rx := by
  have hgot : asked [t] = [] := by simp [asked, hasks]
  rwa [asked_append, hgot, events_append, events_singleton, answered_append, hsent,
    List.append_nil, List.append_nil]

private theorem NodeStep.serving {ts : List NodeTurn} {s s' : NodeState} {a : Action}
    {es : List Event} (hstep : NodeStep parse cfg s a s' es)
    (h : Serving cfg (asked ts) (answered (events ts)) s.rx) :
    Serving cfg (asked (ts ++ [⟨s, a, es, s'⟩]))
      (answered (events (ts ++ [⟨s, a, es, s'⟩]))) s'.rx := by
  cases hstep with
  | @recvRequest src datagram req hrx hreq =>
    have hgot : asked [(⟨s, .rxRecv src datagram, [], { s with rx := .request src req }⟩ :
        NodeTurn)] = [(src, req)] := by
      simp [asked, asks, hreq]
    rw [asked_append, hgot, events_append, events_singleton, List.append_nil]
    exact ⟨asked ts, rfl, h.done⟩
  | recvDrop src datagram hrx hdrop => exact serving_quiet h (by simp [asks, hdrop]) rfl
  | recvResponse hrx hresp =>
    have hidle : Serving cfg (asked ts) (answered (events ts)) .listening := h.done
    exact serving_quiet hidle (by simp [asks, hresp]) rfl
  | readT2 phc sys hrx =>
    rw [hrx] at h
    have hopen : Serving cfg (asked ts) (answered (events ts))
        (.requestStamped _ _ (phc.getD sys)) := h
    exact serving_quiet hopen rfl rfl
  | @readT3 src req t2 phc sys hrx =>
    rw [hrx] at h
    obtain ⟨earlier, hgot, hearlier⟩ := h
    have hreply : Serving cfg (asked ts) (answered (events ts))
        (.replying src (replyTo cfg req t2 (phc.getD sys))) :=
      ⟨earlier, req, t2, phc.getD sys, hgot, rfl, hearlier⟩
    exact serving_quiet hreply rfl rfl
  | @reply dst resp hrx =>
    rw [hrx] at h
    obtain ⟨earlier, req, t2, t3, hgot, rfl, hearlier⟩ := h
    have hlast : ReplyFor cfg (dst, (replyTo cfg req t2 t3).serialize) (dst, req) :=
      ⟨rfl, t2, t3, rfl⟩
    rw [asked_append, hgot, events_append, events_singleton, answered_append]
    change AnswersInOrder cfg _ (earlier ++ [(dst, req)] ++ [])
    rw [List.append_nil]
    exact hearlier.answer hlast
  | advance
  | tickIdle
  | tick
  | drawFailed
  | drew
  | sendFailed
  | sent
  | insert
  | cleanup
  | sweep
  | expire
  | overwrite => exact serving_quiet h rfl rfl
  | @store e w rest hrx =>
    have hidle : Serving cfg (asked ts) (answered (events ts))
        (if rest.isEmpty then .listening else .storing e rest) := by
      split <;> exact h.done
    exact serving_quiet hidle rfl rfl
  | _ =>
    have hidle : Serving cfg (asked ts) (answered (events ts)) .listening := h.done
    exact serving_quiet hidle rfl rfl

/-- In every run the node answers requests only, each at most once, in the order in which they
came, to the address they came from, with their number and time. -/
theorem replies_answer_requests {ts : List NodeTurn} {s : NodeState}
    (hrun : (node parse cfg).Run {} ts s) :
    AnswersInOrder cfg (answered (events ts)) (asked ts) := by
  have hserving := hrun.invariant
    (I := fun ts s => Serving cfg (asked ts) (answered (events ts)) s.rx) ?_
    fun _ _ _ _ _ _ h hstep => (NodeStep.of_step hstep).serving h
  · exact hserving.done
  · exact ⟨[], List.Sublist.refl _, .nil⟩

/-- A request of another node. -/
def demoRequest : TimeRequest :=
  Probe.request { demoConfig with nodeId := 2 }
    { seq := 9, target := ⟨1, ⟨[10, 0, 0, 1], 32001⟩⟩, t1 := 500 }

def demoServe : List Action :=
  [.rxRecv ⟨[10, 0, 0, 2], 32002⟩ demoRequest.serialize, .rxReadT2 (some 1000) 0,
    .rxReadT3 (some 1010) 0, .rxReply true, .rxLatency 2000]

private theorem demoServe_runs :
    ((node demoParse demoConfig).exec {} demoServe).isSome = true := by rfl

theorem replies_answer_requests_demo :
    AnswersInOrder demoConfig (answered (events ((node demoParse demoConfig).turnsOf {} demoServe)))
        (asked ((node demoParse demoConfig).turnsOf {} demoServe)) ∧
      (answered (events ((node demoParse demoConfig).turnsOf {} demoServe))).length = 1 :=
  ⟨replies_answer_requests (Run.of_actions demoServe_runs), by rfl⟩

/-- The bytes that an event sends to an address as an answer. -/
def Event.replyBytes (a : SocketAddr) : Event → Nat
  | .replied dst payload => if dst = a then payload.length else 0
  | _ => 0

/-- The bytes of the datagram that a turn receives from an address. -/
def bytesFrom (a : SocketAddr) (t : NodeTurn) : Nat :=
  match t.action with
  | .rxRecv src datagram => if src = a then datagram.length else 0
  | _ => 0

/-- The bytes that a turn answers to an address. -/
def bytesTo (a : SocketAddr) (t : NodeTurn) : Nat := (t.emitted.map (Event.replyBytes a)).sum

/-- What is still owed to an address: the answer to a request of 66 bytes has 86. -/
def RxTask.due (a : SocketAddr) : RxTask → Nat
  | .request src _ | .requestStamped src _ _ => if src = a then 66 * 86 else 0
  | .replying dst resp => if dst = a then 66 * resp.serialize.length else 0
  | _ => 0

private theorem rxDispatch_request {buf : List UInt8} {req : TimeRequest}
    (h : rxDispatch buf = .request req) : TimeRequest.deserialize buf = some req := by
  unfold rxDispatch at h
  split at h
  · contradiction
  · split at h
    · split at h
      · contradiction
      · rename_i req' hdec
        split at h
        · contradiction
        · obtain rfl := Incoming.request.inj h
          exact hdec
    · split at h
      · split at h
        · contradiction
        · split at h <;> contradiction
      · contradiction

private theorem length_of_request {datagram : List UInt8} {req : TimeRequest}
    (hreq : rxDispatch (datagram.take MAX_PACKET) = .request req) : 66 ≤ datagram.length := by
  by_contra hshort
  have hcut : (datagram.take MAX_PACKET).length < 66 := by
    rw [List.length_take]
    exact (min_le_right _ _).trans_lt (Nat.lt_of_not_le hshort)
  have hnone := rxDispatch_request hreq
  rw [TimeRequest.deserialize_short hcut] at hnone
  contradiction

private theorem NodeStep.due (a : SocketAddr) {s s' : NodeState} {act : Action} {es : List Event}
    (hstep : NodeStep parse cfg s act s' es) :
    66 * bytesTo a ⟨s, act, es, s'⟩ + s'.rx.due a ≤
      s.rx.due a + 86 * bytesFrom a ⟨s, act, es, s'⟩ := by
  cases hstep with
  | @recvRequest src datagram req hrx hreq =>
    have hlen := length_of_request hreq
    simp only [bytesTo, bytesFrom, RxTask.due, List.map_nil, List.sum_nil]
    split <;> omega
  | @readT3 src req t2 phc sys hrx =>
    simp only [bytesTo, bytesFrom, hrx, RxTask.due, TimeResponse.length_serialize,
      List.map_nil, List.sum_nil]
    omega
  | @reply dst resp hrx =>
    simp only [bytesTo, bytesFrom, hrx, RxTask.due, Event.replyBytes, List.map_cons,
      List.map_nil, List.sum_cons, List.sum_nil]
    split <;> omega
  | readT2 phc sys hrx => simp [bytesTo, bytesFrom, hrx, RxTask.due]
  | recvResponse hrx => simp [bytesTo, bytesFrom, RxTask.due]
  | @store e w rest hrx =>
    cases rest <;> simp [bytesTo, bytesFrom, hrx, RxTask.due, Event.replyBytes]
  | _ => simp [bytesTo, bytesFrom, RxTask.due, Event.replyBytes]

/-- In every run what a node answers to an address is at most 86 bytes for every 66 that came
from there, whatever was sent to it and from where. -/
theorem reply_bytes_bounded (a : SocketAddr) {ts : List NodeTurn} {s : NodeState}
    (hrun : (node parse cfg).Run {} ts s) :
    66 * sumOver (bytesTo a) ts ≤ 86 * sumOver (bytesFrom a) ts := by
  have haccount := hrun.account (C := fun t => 66 * bytesTo a t)
    (G := fun t => 86 * bytesFrom a t) (S := fun s => s.rx.due a)
    fun _ _ _ _ hstep => (NodeStep.of_step hstep).due a
  rw [sumOver_mul, sumOver_mul] at haccount
  have hnone : RxTask.due a .listening = 0 := rfl
  change _ ≤ RxTask.due a .listening + _ at haccount
  omega

theorem reply_bytes_bounded_demo :
    66 * sumOver (bytesTo ⟨[10, 0, 0, 2], 32002⟩)
        ((node demoParse demoConfig).turnsOf {} demoServe) ≤
      86 * sumOver (bytesFrom ⟨[10, 0, 0, 2], 32002⟩)
        ((node demoParse demoConfig).turnsOf {} demoServe) ∧
    sumOver (bytesTo ⟨[10, 0, 0, 2], 32002⟩)
        ((node demoParse demoConfig).turnsOf {} demoServe) = 86 :=
  ⟨reply_bytes_bounded _ (Run.of_actions demoServe_runs), by rfl⟩

/-! ## Probes -/

/-- The passes that the transmit task still has to make in this tick, for targets of a kind. -/
def TxTask.passes (p : Target → Bool) : TxTask → Nat
  | .probing todo | .sending _ todo | .sent _ todo => todo.countP p
  | _ => 0

def Event.drawsFor (p : Target → Bool) : Event → Bool
  | .drew _ target _ => p target
  | _ => false

def ticks (t : NodeTurn) : Nat := if t.action = .txTick then 1 else 0

private theorem NodeStep.passes (p : Target → Bool) {s s' : NodeState} {a : Action}
    {es : List Event} (hstep : NodeStep parse cfg s a s' es) :
    es.countP (Event.drawsFor p) + s'.tx.passes p ≤
      s.tx.passes p + (probeTargets parse cfg).countP p * ticks ⟨s, a, es, s'⟩ := by
  cases hstep with
  | tick htx => simp [ticks, htx, TxTask.passes]
  | drawFailed htx
  | drew t1 htx =>
    rw [htx]
    simp only [TxTask.passes, List.countP_cons, List.countP_nil, Event.drawsFor, Nat.zero_add]
    exact Nat.le_add_right_of_le (Nat.le_of_eq (Nat.add_comm _ _))
  | sendFailed htx
  | sent htx
  | insert htx
  | overwrite htx => simp [ticks, htx, TxTask.passes, Event.drawsFor]
  | @sweep _ expired => cases expired <;> simp [TxTask.passes]
  | @expire _ rest => cases rest <;> simp [TxTask.passes, Event.drawsFor]
  | tickIdle
  | cleanup => simp [TxTask.passes]
  | _ => simp [Event.drawsFor]

private theorem NodeStep.deadline {s s' : NodeState} {a : Action} {es : List Event}
    (hstep : NodeStep parse cfg s a s' es) (hdue : s.deadline ≤ s.now + tickPeriod cfg) :
    s'.deadline = s.deadline + ticks ⟨s, a, es, s'⟩ * tickPeriod cfg ∧
      s'.deadline ≤ s'.now + tickPeriod cfg := by
  cases hstep with
  | tickIdle htx hnow
  | tick htx hnow => simp [ticks, hnow]
  | advance d =>
    refine ⟨by simp [ticks], ?_⟩
    exact hdue.trans (Nat.add_le_add_right (Nat.le_add_right _ _) _)
  | _ => simp [ticks, hdue]

theorem run_ticks {ts : List NodeTurn} {s : NodeState} (hrun : (node parse cfg).Run {} ts s) :
    sumOver ticks ts * tickPeriod cfg ≤ s.now + tickPeriod cfg := by
  have hclock := hrun.invariant (I := fun ts s => s.deadline = sumOver ticks ts * tickPeriod cfg ∧
    s.deadline ≤ s.now + tickPeriod cfg) ⟨by simp, Nat.zero_le _⟩ ?_
  · rw [← hclock.1]
    exact hclock.2
  · rintro ts s a s' es _ ⟨hdeadline, hdue⟩ hstep
    obtain ⟨hnext, hdue'⟩ := (NodeStep.of_step hstep).deadline hdue
    refine ⟨?_, hdue'⟩
    rw [hnext, hdeadline, sumOver_append, sumOver_singleton, Nat.add_mul]

private theorem tickPeriod_pos (cfg : Config) : 0 < tickPeriod cfg := by
  have hone : 1 ≤ (max cfg.sampling.intervalMs 1).toNat := by
    change 1 ≤ (if cfg.sampling.intervalMs ≤ 1 then 1 else cfg.sampling.intervalMs).toNat
    split
    · exact le_rfl
    · rename_i hlarge
      exact Nat.le_of_lt (UInt64.lt_iff_toNat_lt.mp (UInt64.not_le.mp hlarge))
  exact Nat.mul_pos hone (by decide)

/-- The ticks of a run: one at the start and one after every period that has gone by. -/
theorem run_ticks_le {ts : List NodeTurn} {s : NodeState} (hrun : (node parse cfg).Run {} ts s) :
    sumOver ticks ts ≤ s.now / tickPeriod cfg + 1 := by
  have hpos := tickPeriod_pos cfg
  rw [← Nat.add_div_right _ hpos]
  exact (Nat.le_div_iff_mul_le hpos).mpr (run_ticks hrun)

/-- In every run the passes for targets of a kind are at most those of one tick, at the start and
after every period that has gone by. -/
theorem probes_paced (p : Target → Bool) {ts : List NodeTurn} {s : NodeState}
    (hrun : (node parse cfg).Run {} ts s) :
    (events ts).countP (Event.drawsFor p) ≤
      (probeTargets parse cfg).countP p * (s.now / tickPeriod cfg + 1) := by
  have haccount := hrun.account (C := fun t => t.emitted.countP (Event.drawsFor p))
    (G := fun t => (probeTargets parse cfg).countP p * ticks t)
    (S := fun s => s.tx.passes p)
    fun _ _ _ _ hstep => (NodeStep.of_step hstep).passes p
  rw [sumOver_countP, sumOver_mul] at haccount
  have hstart : TxTask.passes p .waiting = 0 := rfl
  change _ ≤ TxTask.passes p .waiting + _ at haccount
  calc (events ts).countP (Event.drawsFor p)
      ≤ (probeTargets parse cfg).countP p * sumOver ticks ts := by omega
    _ ≤ _ := Nat.mul_le_mul_left _ (run_ticks_le hrun)

theorem probes_paced_demo :
    (events ((node demoParse demoConfig).turnsOf {} demoSample)).countP
        (Event.drawsFor fun target => target.peerId = 2) ≤
      (probeTargets demoParse demoConfig).countP (fun target => target.peerId = 2) *
        (((node demoParse demoConfig).stateAfter {} demoSample).now / tickPeriod demoConfig + 1) ∧
    (events ((node demoParse demoConfig).turnsOf {} demoSample)).countP
        (Event.drawsFor fun target => target.peerId = 2) = 1 :=
  ⟨probes_paced _ (Run.of_actions demoSample_runs), by rfl⟩

private theorem length_drawn (es : List Event) :
    (drawn es).length = es.countP (Event.drawsFor fun _ => true) := by
  rw [drawn, List.length_filterMap_eq_countP]
  congr
  funext e
  cases e <;> rfl

/-- While the passes of all ticks so far are fewer than the numbers, none is handed out twice and
no request overwrites another one. -/
theorem numbers_fresh {ts : List NodeTurn} {s : NodeState} (hrun : (node parse cfg).Run {} ts s)
    (hearly : (probeTargets parse cfg).length * (s.now / tickPeriod cfg + 1) < 2 ^ 32) :
    (drawn (events ts)).Nodup ∧ ∀ t, .displaced t ∉ events ts := by
  have hpaced := probes_paced (fun _ => true) hrun
  rw [List.countP_true, ← length_drawn] at hpaced
  have hfew := hpaced.trans_lt hearly
  exact ⟨nodup_drawn hrun hfew, no_displaced hrun hfew⟩

theorem numbers_fresh_demo :
    drawn (events ((node demoParse demoConfig).turnsOf {} demoOutcomes)) = [1, 2, 3] ∧
      (drawn (events ((node demoParse demoConfig).turnsOf {} demoOutcomes))).Nodup :=
  ⟨by decide +kernel, (numbers_fresh (Run.of_actions demoOutcomes_runs) (by decide +kernel)).1⟩

/-- The turns that the transmit task still owes for what it has begun. -/
def TxTask.work : TxTask → Nat
  | .waiting => 0
  | .probing todo => 4 * todo.length + 2
  | .sending _ todo => 4 * todo.length + 5
  | .sent _ todo => 4 * todo.length + 4
  | .sweeping _ => 1
  | .expiring expired => expired.length

/-- The turns that the receive task still owes for the datagram it works on. -/
def RxTask.work : RxTask → Nat
  | .listening => 0
  | .request _ _ => 4
  | .requestStamped _ _ _ => 3
  | .replying _ _ => 2
  | .replied _ => 1
  | .response _ _ => 7
  | .responseStamped _ _ _ => 6
  | .matched _ => 5
  | .storing _ writes => writes.length

/-- An entry of the map is one turn: the one that will count its timeout. -/
def NodeState.work (s : NodeState) : Nat :=
  s.tx.work + s.rx.work + (Table.contents s.pending).card

def works (t : NodeTurn) : Nat :=
  match t.action with
  | .advance _ => 0
  | _ => 1

def receives (t : NodeTurn) : Nat :=
  match t.action with
  | .rxRecv _ _ => 1
  | _ => 0

theorem card_erase {pending : PendingMap} {seq : UInt32} {req : PendingRequest}
    (hsome : pending.lookup seq = some req) :
    (Table.contents pending).card = (Table.contents (pending.erase seq)).card + 1 := by
  rw [Table.contents_erase hsome, Multiset.card_cons]

private theorem NodeStep.work {s s' : NodeState} {a : Action} {es : List Event}
    (hstep : NodeStep parse cfg s a s' es) :
    works ⟨s, a, es, s'⟩ + s'.work ≤ s.work + (8 * receives ⟨s, a, es, s'⟩ +
      (4 * (probeTargets parse cfg).length + 3) * ticks ⟨s, a, es, s'⟩) := by
  cases hstep with
  | tickIdle htx
  | tick htx =>
    simp only [works, receives, ticks, NodeState.work, htx, TxTask.work, if_true]
    omega
  | insert htx hfresh =>
    simp only [works, receives, NodeState.work, htx, TxTask.work,
      Table.contents_insert_fresh _ hfresh, Multiset.card_cons]
    omega
  | overwrite htx hold =>
    simp only [works, receives, NodeState.work, htx, TxTask.work, Table.contents_insert,
      Multiset.card_cons, card_erase hold]
    omega
  | @sweep now expired htx hperm =>
    have hsplit := congrArg Multiset.card (Table.retain_add_evicted (keepPending now) s.pending)
    rw [Multiset.card_add, Multiset.coe_card, ← hperm.length_eq] at hsplit
    cases expired <;>
      simp only [works, receives, NodeState.work, htx, TxTask.work, List.isEmpty_nil,
        List.isEmpty_cons, if_true, Bool.false_eq_true, if_false, List.length_cons,
        List.length_nil] at hsplit ⊢ <;> omega
  | @expire t rest sys htx =>
    cases rest <;> simp [works, receives, NodeState.work, htx, TxTask.work] <;> omega
  | mismatch hrx hsome
  | «match» hrx hsome =>
    simp only [works, receives, NodeState.work, hrx, RxTask.work, card_erase hsome]
    omega
  | @store e w rest hrx =>
    cases rest <;> simp [works, receives, NodeState.work, hrx, RxTask.work] <;> omega
  | runtime hrx =>
    simp only [works, receives, NodeState.work, hrx, RxTask.work, sampleWrites, List.length_cons,
      List.length_nil]
    omega
  | drawFailed htx
  | drew _ htx
  | sendFailed htx
  | sent htx
  | cleanup htx =>
    simp only [works, receives, NodeState.work, htx, TxTask.work, List.length_cons,
      List.length_nil]
    omega
  | advance d =>
    simp only [works, NodeState.work]
    omega
  | recvDrop _ _ hrx
  | recvRequest hrx
  | recvResponse hrx
  | readT2 _ _ hrx
  | readT3 _ _ hrx
  | reply hrx
  | replyFailed hrx
  | latency _ hrx
  | readT4 _ _ hrx
  | orphan hrx =>
    simp only [works, receives, NodeState.work, hrx, RxTask.work]
    omega

/-- In every run the tasks of a node take at most eight turns for each datagram received, and for
each tick at most four for each of its passes and three more. -/
theorem work_bounded {ts : List NodeTurn} {s : NodeState} (hrun : (node parse cfg).Run {} ts s) :
    sumOver works ts ≤ 8 * sumOver receives ts +
      (4 * (probeTargets parse cfg).length + 3) * (s.now / tickPeriod cfg + 1) := by
  have haccount := hrun.account (C := works) (S := NodeState.work)
    (G := fun t => 8 * receives t + (4 * (probeTargets parse cfg).length + 3) * ticks t)
    fun _ _ _ _ hstep => (NodeStep.of_step hstep).work
  have hticks := Nat.mul_le_mul_left (4 * (probeTargets parse cfg).length + 3) (run_ticks_le hrun)
  have hstart : NodeState.work {} = 0 := rfl
  rw [hstart, sumOver_add, sumOver_mul, sumOver_mul] at haccount
  omega

theorem work_bounded_demo :
    sumOver works ((node demoParse demoConfig).turnsOf {} demoSample) ≤
      8 * sumOver receives ((node demoParse demoConfig).turnsOf {} demoSample) +
        (4 * (probeTargets demoParse demoConfig).length + 3) *
          (((node demoParse demoConfig).stateAfter {} demoSample).now / tickPeriod demoConfig + 1) ∧
    sumOver works ((node demoParse demoConfig).turnsOf {} demoSample) = 12 :=
  ⟨work_bounded (Run.of_actions demoSample_runs), by rfl⟩

end Zeitpeer
