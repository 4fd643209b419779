import Zeitpeer.Framework.Ensemble
import Zeitpeer.Net.Provenance
import Zeitpeer.Net.Wire

/-!
# Honest nodes on a lossy network

Any number of nodes with distinct ids and addresses run the probing machine around one wire.
The wire never forgets a datagram and hands any of them to the node it is addressed to, at any
time and any number of times, so it loses, duplicates, delays and reorders, but it holds
nothing that no node has sent. Every clock reading succeeds and returns the node's clock now.
-/

namespace Zeitpeer

open Framework Machine Ensemble

structure Datagram where
  src : SocketAddr
  dst : SocketAddr
  payload : List UInt8
  deriving DecidableEq, Repr

/-- True time and everything ever sent. -/
structure Wire where
  time : Nat := 0
  datagrams : List Datagram := []
  deriving DecidableEq, Repr

/-- Nodes with distinct ids and addresses and with clocks that never run backwards. Whom their
peer entries name is left open. -/
structure Cluster (ι : Type) where
  cfg : ι → Config
  addr : ι → SocketAddr
  clock : ι → Nat → UInt64
  parse : String → UInt16 → Option SocketAddr
  id_injective : Function.Injective fun i => (cfg i).nodeId
  addr_injective : Function.Injective addr
  clock_mono : ∀ i {τ τ'}, τ ≤ τ' → (clock i τ).toNat ≤ (clock i τ').toNat

variable {ι : Type}

/-- A clock reading returns the clock, and a datagram comes off the wire. -/
def Cluster.allows (c : Cluster ι) (w : Wire) (i : ι) : Action → Bool
  | .txDraw t1 => t1 = some (c.clock i w.time)
  | .rxReadT2 phc _ => phc = some (c.clock i w.time)
  | .rxReadT3 phc _ => phc = some (c.clock i w.time)
  | .rxReadT4 phc _ => phc = some (c.clock i w.time)
  | .rxRecv src datagram => ⟨src, c.addr i, datagram⟩ ∈ w.datagrams
  | _ => true

/-- The datagram that an event of the node at `src` puts on the wire. -/
def Event.datagram? (src : SocketAddr) : Event → Option Datagram
  | .probed probe payload => some ⟨src, probe.target.addr, payload⟩
  | .replied dst payload => some ⟨src, dst, payload⟩
  | _ => none

/-- The nodes around the wire; the only thing the wire does by itself is let time pass. -/
def Cluster.network (c : Cluster ι) :
    Ensemble ι (fun _ => NodeState) (fun _ => Action) (fun _ => Event) Wire Nat where
  machine i := node c.parse (c.cfg i)
  allows := c.allows
  absorb w i es := { w with datagrams := w.datagrams ++ es.filterMap (Event.datagram? (c.addr i)) }
  drift w d := some { w with time := w.time + d }

@[simp] theorem Cluster.absorb_time (c : Cluster ι) (w : Wire) (i : ι) (es : List Event) :
    (c.network.absorb w i es).time = w.time := rfl

abbrev NetState (ι : Type) := Snapshot (fun _ : ι => NodeState) Wire

abbrev NetTurn (ι : Type) :=
  EnsembleTurn (fun _ : ι => NodeState) (fun _ => Action) (fun _ => Event) Wire Nat

def NetState.init : NetState ι := ⟨fun _ => {}, {}⟩

private theorem rxDispatch_serialize_request {req : TimeRequest}
    (hver : req.header.ver = WIRE_VERSION) (hkind : req.header.kind = MSG_REQ) :
    rxDispatch (req.serialize.take MAX_PACKET) = .request req := by
  have hrouted := rxDispatch_append_request hkind []
  rw [List.append_nil] at hrouted
  rw [hrouted, WireType.routed, requestWire, if_pos hver]

private theorem rxDispatch_serialize_response {resp : TimeResponse}
    (hver : resp.header.ver = WIRE_VERSION) (hkind : resp.header.kind = MSG_RESP) :
    rxDispatch (resp.serialize.take MAX_PACKET) = .response resp := by
  have hrouted := rxDispatch_append_response hkind []
  rw [List.append_nil] at hrouted
  rw [hrouted, WireType.routed, responseWire, if_pos hver]

variable [DecidableEq ι]

/-- Node `a` drew the number with this reading of its clock. -/
def DrewAt (ts : List (NetTurn ι)) (a : ι) (seq : UInt32) (t1 : UInt64) : Prop :=
  ∃ target, .drew seq target (some t1) ∈ events (view a ts)

variable (c : Cluster ι) (a b : ι) (θ : Int)

/-- A request that left `a` by its clock and entered `b` by its clock. -/
def Arrived (ts : List (NetTurn ι)) (seq : UInt32) (t2 : UInt64) : Prop :=
  ∃ t1, DrewAt ts a seq t1 ∧ (t1.toNat : Int) + θ ≤ t2.toNat

/-- A response in which `b` answers a probe of `a`, in the order a genuine exchange has. -/
structure Answers (ts : List (NetTurn ι)) (time : Nat) (resp : TimeResponse) : Prop where
  arrived : Arrived a θ ts resp.header.seq resp.t2RecvNs
  turned : resp.t2RecvNs.toNat ≤ resp.t3SendNs.toNat
  sent : resp.t3SendNs.toNat ≤ (c.clock b time).toNat

/-- What may be on the wire: requests from `a` carry its times, and responses to `a` in the
name of `b` answer them. -/
def WireFits (ts : List (NetTurn ι)) (time : Nat) (d : Datagram) : Prop :=
  match rxDispatch (d.payload.take MAX_PACKET) with
  | .drop => True
  | .request req => d.src = c.addr a → DrewAt ts a req.header.seq req.t1SendNs
  | .response resp => d.dst = c.addr a → resp.serverId = (c.cfg b).nodeId →
      Answers c a b θ ts time resp

/-- What a receive task may be working on. -/
def RxFits (ts : List (NetTurn ι)) (time : Nat) (i : ι) : RxTask → Prop
  | .request src req => src = c.addr a → DrewAt ts a req.header.seq req.t1SendNs
  | .requestStamped src req t2 => i = b → src = c.addr a →
      Arrived a θ ts req.header.seq t2 ∧ t2.toNat ≤ (c.clock b time).toNat
  | .replying dst resp => resp.header.ver = WIRE_VERSION ∧ resp.header.kind = MSG_RESP ∧
      resp.serverId = (c.cfg i).nodeId ∧ (i = b → dst = c.addr a → Answers c a b θ ts time resp)
  | .response _ resp => i = a → resp.serverId = (c.cfg b).nodeId → Answers c a b θ ts time resp
  | .responseStamped _ resp t4 => i = a → resp.serverId = (c.cfg b).nodeId →
      Answers c a b θ ts time resp ∧ (resp.t3SendNs.toNat : Int) ≤ t4.toNat + θ
  | _ => True

/-- The state of a run between `a` and `b`. -/
structure Coherent (ts : List (NetTurn ι)) (s : NetState ι) : Prop where
  drawn : ∀ seq t1, DrewAt ts a seq t1 → t1.toNat ≤ (c.clock a s.medium.time).toNat
  wire : ∀ d ∈ s.medium.datagrams, WireFits c a b θ ts s.medium.time d
  rx : ∀ i, RxFits c a b θ ts s.medium.time i (s.members i).rx

variable {c a b θ}

private theorem DrewAt.mono {ts us : List (NetTurn ι)} {seq : UInt32} {t1 : UInt64}
    (h : DrewAt ts a seq t1) : DrewAt (ts ++ us) a seq t1 := by
  obtain ⟨target, hmem⟩ := h
  refine ⟨target, ?_⟩
  rw [view_append, events_append]
  exact List.mem_append_left _ hmem

private theorem Arrived.mono {ts us : List (NetTurn ι)} {seq : UInt32} {t2 : UInt64}
    (h : Arrived a θ ts seq t2) : Arrived a θ (ts ++ us) seq t2 := by
  obtain ⟨t1, hdrew, hle⟩ := h
  exact ⟨t1, hdrew.mono, hle⟩

private theorem Answers.mono {ts us : List (NetTurn ι)} {time time' : Nat} {resp : TimeResponse}
    (h : Answers c a b θ ts time resp) (htime : time ≤ time') :
    Answers c a b θ (ts ++ us) time' resp :=
  ⟨h.arrived.mono, h.turned, h.sent.trans (c.clock_mono b htime)⟩

private theorem WireFits.mono {ts us : List (NetTurn ι)} {time time' : Nat} {d : Datagram}
    (h : WireFits c a b θ ts time d) (htime : time ≤ time') :
    WireFits c a b θ (ts ++ us) time' d := by
  unfold WireFits at h ⊢
  split
  · trivial
  · rename_i req hreq
    rw [hreq] at h
    exact fun hsrc => (h hsrc).mono
  · rename_i resp hresp
    rw [hresp] at h
    exact fun hdst hserver => (h hdst hserver).mono htime

private theorem RxFits.mono {ts us : List (NetTurn ι)} {time time' : Nat} {i : ι} {rx : RxTask}
    (h : RxFits c a b θ ts time i rx) (htime : time ≤ time') :
    RxFits c a b θ (ts ++ us) time' i rx := by
  cases rx with
  | request => exact fun hsrc => (h hsrc).mono
  | requestStamped =>
    intro hi hsrc
    obtain ⟨harrived, hnow⟩ := h hi hsrc
    exact ⟨harrived.mono, hnow.trans (c.clock_mono b htime)⟩
  | replying =>
    obtain ⟨hver, hkind, hserver, hanswers⟩ := h
    exact ⟨hver, hkind, hserver, fun hi hdst => (hanswers hi hdst).mono htime⟩
  | response => exact fun hi hserver => (h hi hserver).mono htime
  | responseStamped =>
    intro hi hserver
    obtain ⟨hanswers, hback⟩ := h hi hserver
    exact ⟨hanswers.mono htime, hback⟩
  | _ => trivial

/-- A receive task keeps fitting: what it takes in was on the wire, and what it reads is the
clock now. -/
private theorem NodeStep.rxFits {ts : List (NetTurn ι)} {w : Wire} {i : ι} {s s' : NodeState}
    {act : Action}
    {es : List Event} (hθ : ∀ τ, ((c.clock b τ).toNat : Int) = (c.clock a τ).toNat + θ)
    (hstep : NodeStep c.parse (c.cfg i) s act s' es) (hallow : c.allows w i act = true)
    (hdrawn : ∀ seq t1, DrewAt ts a seq t1 → t1.toNat ≤ (c.clock a w.time).toNat)
    (hwire : ∀ d ∈ w.datagrams, WireFits c a b θ ts w.time d)
    (hrx : RxFits c a b θ ts w.time i s.rx) : RxFits c a b θ ts w.time i s'.rx := by
  cases hstep with
  | @recvRequest src datagram req hlisten hreq =>
    intro hsrc
    have hfits := hwire ⟨src, c.addr i, datagram⟩ (by simpa [Cluster.allows] using hallow)
    simp only [WireFits, hreq] at hfits
    exact hfits hsrc
  | @recvResponse src datagram resp hlisten hresp =>
    intro hi hserver
    have hfits := hwire ⟨src, c.addr i, datagram⟩ (by simpa [Cluster.allows] using hallow)
    simp only [WireFits, hresp] at hfits
    exact hfits (by rw [hi]) hserver
  | @readT2 src req phc sys hrequest =>
    have hread : phc = some (c.clock i w.time) := by simpa [Cluster.allows] using hallow
    rw [hrequest] at hrx
    rintro rfl hsrc
    have hdrew := hrx hsrc
    have hpast := hdrawn _ _ hdrew
    have hnow := hθ w.time
    rw [hread, Option.getD_some]
    refine ⟨⟨req.t1SendNs, hdrew, ?_⟩, le_rfl⟩
    omega
  | @readT3 src req t2 phc sys hrequest =>
    have hread : phc = some (c.clock i w.time) := by simpa [Cluster.allows] using hallow
    rw [hrequest] at hrx
    refine ⟨rfl, rfl, rfl, ?_⟩
    rintro rfl hsrc
    obtain ⟨harrived, hnow⟩ := hrx rfl hsrc
    rw [hread, Option.getD_some]
    exact ⟨harrived, hnow, le_rfl⟩
  | @readT4 src resp phc sys hresponse =>
    have hread : phc = some (c.clock i w.time) := by simpa [Cluster.allows] using hallow
    rw [hresponse] at hrx
    rintro rfl hserver
    have hanswers := hrx rfl hserver
    have hsent := hanswers.sent
    have hnow := hθ w.time
    rw [hread, Option.getD_some]
    refine ⟨hanswers, ?_⟩
    omega
  | reply
  | replyFailed
  | latency
  | orphan
  | mismatch
  | «match»
  | runtime => trivial
  | @store _ _ rest => cases rest <;> trivial
  | _ => exact hrx

private theorem NodeStep.wireFits {ts : List (NetTurn ι)} {time : Nat} {i : ι} {s s' : NodeState}
    {act : Action} {es : List Event} (hstep : NodeStep c.parse (c.cfg i) s act s' es)
    (hissued : Issued (c.cfg i) (events (view i ts)) s.tx)
    (hrx : RxFits c a b θ ts time i s.rx) :
    ∀ d ∈ es.filterMap (Event.datagram? (c.addr i)), WireFits c a b θ ts time d := by
  cases hstep with
  | @sent probe todo htx =>
    intro d hd
    obtain rfl : d = ⟨c.addr i, probe.target.addr, (probe.request (c.cfg i)).serialize⟩ := by
      simpa [Event.datagram?] using hd
    have hdispatch : rxDispatch ((probe.request (c.cfg i)).serialize.take MAX_PACKET) =
        .request (probe.request (c.cfg i)) := rxDispatch_serialize_request rfl rfl
    simp only [WireFits, hdispatch]
    intro hsrc
    obtain rfl := c.addr_injective hsrc
    exact ⟨probe.target, hissued.ahead probe (by rw [htx]; rfl)⟩
  | @reply dst resp hreply =>
    intro d hd
    obtain rfl : d = ⟨c.addr i, dst, resp.serialize⟩ := by simpa [Event.datagram?] using hd
    rw [hreply] at hrx
    obtain ⟨hver, hkind, hid, hanswers⟩ := hrx
    simp only [WireFits, rxDispatch_serialize_response hver hkind]
    intro hdst hserver
    exact hanswers (c.id_injective (hid.symm.trans hserver)) hdst
  | _ => simp [Event.datagram?]

private theorem NodeStep.drew_action {parse : String → UInt16 → Option SocketAddr} {cfg : Config}
    {s s' : NodeState} {act : Action} {es : List Event} {seq : UInt32} {target : Target}
    {t1 : UInt64} (hstep : NodeStep parse cfg s act s' es)
    (hmem : .drew seq target (some t1) ∈ es) : act = .txDraw (some t1) := by
  cases hstep with
  | drew =>
    obtain ⟨_, _, ht1⟩ := Event.drew.inj (List.mem_singleton.mp hmem)
    rw [ht1]
  | _ => simp at hmem

private theorem drewAt_member {ts : List (NetTurn ι)} {s s' : NetState ι} {i : ι} {act : Action}
    {fs : List Event} {seq : UInt32} {t1 : UInt64}
    (h : DrewAt (ts ++ [⟨s, .member i act, fs.map (Sigma.mk i), s'⟩]) a seq t1) :
    DrewAt ts a seq t1 ∨ i = a ∧ ∃ target, .drew seq target (some t1) ∈ fs := by
  obtain ⟨target, hmem⟩ := h
  rw [view_append, events_append, List.mem_append] at hmem
  rcases hmem with hmem | hmem
  · exact .inl ⟨target, hmem⟩
  · by_cases hi : i = a
    · subst hi
      have hview : view i [(⟨s, .member i act, fs.map (Sigma.mk i), s'⟩ : NetTurn ι)] =
          [⟨s.members i, act, fs, s'.members i⟩] := by
        simp [view, turnOf, List.filterMap_map]
      rw [hview, events_singleton] at hmem
      exact .inr ⟨rfl, target, hmem⟩
    · simp [view, turnOf, hi] at hmem

private theorem coherent_member {ts : List (NetTurn ι)} {s s' : NetState ι} {i : ι} {act : Action}
    {es : List (Sigma fun _ : ι => Event)}
    (hθ : ∀ τ, ((c.clock b τ).toNat : Int) = (c.clock a τ).toNat + θ)
    (hrun : c.network.toMachine.Run NetState.init ts s) (h : Coherent c a b θ ts s)
    (hstep : c.network.toMachine.step s (.member i act) = some (s', es)) :
    Coherent c a b θ (ts ++ [⟨s, .member i act, es, s'⟩]) s' := by
  obtain ⟨n, fs, hallow, hlocal, rfl, rfl⟩ := step_member hstep
  have hcases : NodeStep c.parse (c.cfg i) (s.members i) act n fs := NodeStep.of_step hlocal
  have hissued := run_issued_probes (run_view hrun i)
  constructor
  · intro seq t1 hdrew
    rcases drewAt_member hdrew with hold | ⟨rfl, target, hmem⟩
    · exact h.drawn seq t1 hold
    · have hact := hcases.drew_action hmem
      subst hact
      have hread : some t1 = some (c.clock i s.medium.time) := by
        simpa [Cluster.network, Cluster.allows] using hallow
      rw [Option.some.inj hread]
      exact le_rfl
  · intro d hd
    rcases List.mem_append.mp hd with hd | hd
    · exact (h.wire d hd).mono le_rfl
    · exact (hcases.wireFits hissued (h.rx i) d hd).mono le_rfl
  · intro j
    by_cases hj : j = i
    · subst hj
      have hrx := hcases.rxFits hθ hallow h.drawn h.wire (h.rx j)
      simpa using hrx.mono le_rfl
    · simpa [Function.update_of_ne hj] using (h.rx j).mono le_rfl

private theorem coherent_drift {ts : List (NetTurn ι)} {s s' : NetState ι} {d : Nat}
    {es : List (Sigma fun _ : ι => Event)} (h : Coherent c a b θ ts s)
    (hstep : c.network.toMachine.step s (.drift d) = some (s', es)) :
    Coherent c a b θ (ts ++ [⟨s, .drift d, es, s'⟩]) s' := by
  obtain ⟨w, hdrift, rfl, rfl⟩ := step_drift hstep
  obtain rfl := Option.some.inj hdrift
  have htime : s.medium.time ≤ s.medium.time + d := Nat.le_add_right _ _
  constructor
  · rintro seq t1 ⟨target, hmem⟩
    have hold : DrewAt ts a seq t1 := by
      rw [view_append] at hmem
      change _ ∈ events (view a ts ++ []) at hmem
      rw [List.append_nil] at hmem
      exact ⟨target, hmem⟩
    exact (h.drawn seq t1 hold).trans (c.clock_mono a htime)
  · exact fun d hd => (h.wire d hd).mono htime
  · exact fun j => (h.rx j).mono htime

theorem run_coherent {ts : List (NetTurn ι)} {s : NetState ι}
    (hθ : ∀ τ, ((c.clock b τ).toNat : Int) = (c.clock a τ).toNat + θ)
    (hrun : c.network.toMachine.Run NetState.init ts s) : Coherent c a b θ ts s := by
  refine hrun.invariant (I := Coherent c a b θ) ⟨?_, ?_, ?_⟩ ?_
  · rintro seq t1 ⟨target, hmem⟩
    simp at hmem
  · intro d hd
    exact absurd hd List.not_mem_nil
  · exact fun i => show RxFits c a b θ [] 0 i .listening from trivial
  · intro ts s m s' es hbefore h hstep
    cases m with
    | member i act => exact coherent_member hθ hbefore h hstep
    | drift d => exact coherent_drift h hstep

/-! ## Accuracy -/

/-- The request that a response meets carries the time its number was drawn with. -/
theorem drewAt_of_pending {ts : List (NetTurn ι)} {s : NetState ι} {seq : UInt32}
    {req : PendingRequest} (hrun : c.network.toMachine.Run NetState.init ts s)
    (hlook : (s.members a).pending.lookup seq = some req) :
    ∃ t1 : UInt64, DrewAt ts a seq t1 ∧ req.t1Ns = t1.toNat := by
  have hlocal := run_view hrun a
  obtain ⟨probe, hprobed, _, htoken⟩ :=
    (run_sourced hlocal).inserted _ (inserted_of_pending hlocal hlook)
  have hseq : seq = probe.seq := congrArg (fun t : Token => t.1) htoken
  have ht1 : req.t1Ns = probe.t1.toNat := congrArg (fun t : Token => t.2.t1Ns) htoken
  refine ⟨probe.t1, ⟨probe.target, ?_⟩, ht1⟩
  rw [hseq]
  exact ((run_issued_probes hlocal).probed probe _ hprobed).2

/-- Every sample that `a` records under `b` has a non-negative delay, and its offset misses the
difference of the two clocks by at most half of the delay, up to the halving. The offset and the
delay are the `i128` of the exchange; they are rounded to `f64` in what is stored. -/
theorem sample_accurate {ts : List (NetTurn ι)} {s : NetState ι} {w : TsAdd} {e : Exchange}
    (hθ : ∀ τ, ((c.clock b τ).toNat : Int) - (c.clock a τ).toNat = θ)
    (hrun : c.network.toMachine.Run NetState.init ts s)
    (hfew : (drawn (events (view a ts))).length < 2 ^ 32)
    (hmem : ⟨a, .tsAdd w (.reply e)⟩ ∈ events ts)
    (hkey : w.key = .peer (c.cfg b).nodeId .offset ∨ w.key = .peer (c.cfg b).nodeId .delay) :
    (w.key = .peer (c.cfg b).nodeId .offset → w.val = F64.ofInt e.calc.offsetNs) ∧
      (w.key = .peer (c.cfg b).nodeId .delay → w.val = F64.ofInt e.calc.delayNs) ∧
      0 ≤ e.calc.delayNs ∧ |2 * (e.calc.offsetNs - θ)| ≤ e.calc.delayNs + 1 := by
  have hlocal := run_view hrun a
  have hmem' : .tsAdd w (.reply e) ∈ events (view a ts) := (mem_events_view hrun).mpr hmem
  obtain ⟨hmatched, jitter, hwrite⟩ := (run_backed hlocal).writes w _ hmem'
  have hserver : e.resp.serverId = (c.cfg b).nodeId ∧
      (w.key = .peer (c.cfg b).nodeId .offset → w.val = F64.ofInt e.calc.offsetNs) ∧
      (w.key = .peer (c.cfg b).nodeId .delay → w.val = F64.ofInt e.calc.delayNs) := by
    simp only [sampleWrites, List.mem_cons, List.not_mem_nil, or_false] at hwrite
    rcases hwrite with rfl | rfl | rfl | rfl <;> simp_all
  refine ⟨hserver.2.1, hserver.2.2, ?_⟩
  obtain ⟨t, ht, haction, hrx, hlook⟩ := hmatched.taken
  obtain ⟨u, hu, _, hmember⟩ := mem_view ht
  obtain ⟨before, rest, rfl⟩ := List.append_of_mem hu
  have hbefore := hrun.middle.1
  rw [← hmember] at hrx hlook
  have hcoherent : Coherent c a b θ before u.before := by
    apply run_coherent _ hbefore
    intro τ
    have hdiff := hθ τ
    omega
  have hfits := hcoherent.rx a
  rw [hrx] at hfits
  obtain ⟨hanswers, hback⟩ := hfits rfl hserver.1
  obtain ⟨t1, ⟨target, hdrew⟩, hout⟩ := hanswers.arrived
  obtain ⟨t1', ⟨target', hdrew'⟩, hreq⟩ := drewAt_of_pending hbefore hlook
  have hnodup : (drawn (events (view a before))).Nodup := by
    rw [view_append] at hfew
    exact nodup_drawn (run_view hbefore a) (few_drawn_of_append hfew)
  obtain rfl := Option.some.inj (drew_unique hnodup hdrew hdrew').2
  rw [Exchange.calc, hreq]
  apply computeOffsetDelay_exchange
  · omega
  · omega

def pairAddr (i : Bool) : SocketAddr := ⟨[10, 0, 0, if i then 2 else 1], if i then 32002 else 32001⟩

/-- Two nodes that probe each other; the second clock is 5000 ns ahead of the first. -/
def pairCluster : Cluster Bool where
  cfg i :=
    { nodeId := if i then 2 else 1
      phcDevice := some "/dev/ptp0"
      sampling := { intervalMs := 1000, windowSec := 30 }
      filter := { lambda := 1 / 4, trimRatio := 1 / 10, bestQuantile := 3 / 5,
                  minSamplesPerPeer := 5 }
      peers := [{ id := 1, ip := "10.0.0.1", port := 32001 },
                { id := 2, ip := "10.0.0.2", port := 32002 }] }
  addr := pairAddr
  clock i τ := UInt64.ofNat (min τ 1000000 + if i then 6000 else 1000)
  parse _ip port := some (pairAddr (port = 32002))
  id_injective := by
    unfold Function.Injective
    decide
  addr_injective := by
    unfold Function.Injective
    decide
  clock_mono i τ τ' hle := by
    simp only [UInt64.toNat_ofNat']
    split <;> omega

def pairRequest : TimeRequest :=
  Probe.request (pairCluster.cfg false) { seq := 1, target := ⟨2, pairAddr true⟩, t1 := 1000 }

def pairResponse : TimeResponse := replyTo (pairCluster.cfg true) pairRequest 6100 6110

/-- One exchange, with 100 ns on each way and 10 ns at the server. -/
def pairExchange : List (Move (fun _ : Bool => Action) Nat) :=
  [.member false .txTick, .member false (.txDraw (some 1000)), .member false (.txSend true),
    .member false .txInsert, .drift 100,
    .member true (.rxRecv (pairAddr false) pairRequest.serialize),
    .member true (.rxReadT2 (some 6100) 0), .drift 10, .member true (.rxReadT3 (some 6110) 0),
    .member true (.rxReply true), .drift 100,
    .member false (.rxRecv (pairAddr true) pairResponse.serialize),
    .member false (.rxReadT4 (some 1210) 0), .member false .rxTake, .member false .rxRuntime,
    .member false .rxStore]

private theorem pairExchange_runs :
    (pairCluster.network.toMachine.exec NetState.init pairExchange).isSome = true := by rfl

theorem sample_accurate_pair :
    0 ≤ (computeOffsetDelay 1000 6100 6110 1210).delayNs ∧
      |2 * ((computeOffsetDelay 1000 6100 6110 1210).offsetNs - 5000)| ≤
        (computeOffsetDelay 1000 6100 6110 1210).delayNs + 1 := by
  have hclock : ∀ τ, ((pairCluster.clock true τ).toNat : Int) -
      (pairCluster.clock false τ).toNat = 5000 := by
    intro τ
    have htrue : (pairCluster.clock true τ).toNat = (min τ 1000000 + 6000) % 2 ^ 64 :=
      UInt64.toNat_ofNat'
    have hfalse : (pairCluster.clock false τ).toNat = (min τ 1000000 + 1000) % 2 ^ 64 :=
      UInt64.toNat_ofNat'
    rw [htrue, hfalse]
    omega
  have haccurate := sample_accurate
    (w := { key := .peer 2 .offset, tsNs := 1210, val := 5000, windowNs := 30000000000 })
    (e := { src := pairAddr true, resp := pairResponse, t4 := 1210,
            req := { peerId := 2, t1Ns := 1000, sentAt := 0 } })
    hclock (Run.of_actions pairExchange_runs) (by decide) (by decide +kernel) (.inl rfl)
  exact haccurate.2.2

end Zeitpeer
