import Zeitpeer.Net.Node

/-!
# What one step of a node can do

The step function says how a step is computed; this relation lists what the outcomes are, one
constructor for each branch of the source. Invariants are proved by cases on it and never
unfold the step function.
-/

namespace Zeitpeer

open Framework

variable (parse : String → UInt16 → Option SocketAddr) (cfg : Config)

inductive NodeStep : NodeState → Action → NodeState → List Event → Prop where
  | advance (s : NodeState) (d : Nat) :
      NodeStep s (.advance d) { s with now := s.now + d } []
  | tickIdle {s : NodeState} (htx : s.tx = .waiting) (hdue : s.deadline ≤ s.now)
      (hphc : cfg.phcDevice = none) :
      NodeStep s .txTick { s with deadline := s.deadline + tickPeriod cfg, tx := .waiting } []
  | tick {s : NodeState} (htx : s.tx = .waiting) (hdue : s.deadline ≤ s.now)
      (hphc : cfg.phcDevice ≠ none) :
      NodeStep s .txTick { s with
        deadline := s.deadline + tickPeriod cfg, tx := .probing (probeTargets parse cfg) } []
  | drawFailed {s : NodeState} {target : Target} {todo : List Target}
      (htx : s.tx = .probing (target :: todo)) :
      NodeStep s (.txDraw none) { s with seq := s.seq + 1, tx := .probing todo }
        [.drew s.seq target none]
  | drew {s : NodeState} {target : Target} {todo : List Target} (t1 : UInt64)
      (htx : s.tx = .probing (target :: todo)) :
      NodeStep s (.txDraw (some t1))
        { s with seq := s.seq + 1, tx := .sending ⟨s.seq, target, t1⟩ todo }
        [.drew s.seq target (some t1)]
  | sendFailed {s : NodeState} {probe : Probe} {todo : List Target}
      (htx : s.tx = .sending probe todo) :
      NodeStep s (.txSend false) { s with tx := .probing todo } []
  | sent {s : NodeState} {probe : Probe} {todo : List Target} (htx : s.tx = .sending probe todo) :
      NodeStep s (.txSend true) { s with tx := .sent probe todo }
        [.probed probe (probe.request cfg).serialize]
  | insert {s : NodeState} {probe : Probe} {todo : List Target} (htx : s.tx = .sent probe todo)
      (hfresh : s.pending.lookup probe.seq = none) :
      NodeStep s .txInsert
        { s with pending := s.pending.insert probe.seq (probe.pending s.now), tx := .probing todo }
        [.inserted ⟨probe.seq, probe.pending s.now⟩]
  | overwrite {s : NodeState} {probe : Probe} {todo : List Target} {old : PendingRequest}
      (htx : s.tx = .sent probe todo) (hold : s.pending.lookup probe.seq = some old) :
      NodeStep s .txInsert
        { s with pending := s.pending.insert probe.seq (probe.pending s.now), tx := .probing todo }
        [.inserted ⟨probe.seq, probe.pending s.now⟩, .displaced ⟨probe.seq, old⟩]
  | cleanup {s : NodeState} (htx : s.tx = .probing []) :
      NodeStep s .txCleanup { s with tx := .sweeping s.now } []
  | sweep {s : NodeState} {now : Instant} {expired : List Token} (htx : s.tx = .sweeping now)
      (hperm : expired.Perm (Table.evicted (keepPending now) s.pending)) :
      NodeStep s (.txSweep expired)
        { s with
          pending := Table.retain (keepPending now) s.pending
          tx := if expired.isEmpty then .waiting else .expiring expired } []
  | expire {s : NodeState} {t : Token} {rest : List Token} (sys : UInt64)
      (htx : s.tx = .expiring (t :: rest)) :
      NodeStep s (.txExpire sys)
        { s with tx := if rest.isEmpty then .waiting else .expiring rest }
        [.tsAdd (timeoutWrite cfg t.2 sys) (.expiry t)]
  | recvDrop {s : NodeState} (src : SocketAddr) (datagram : List UInt8) (hrx : s.rx = .listening)
      (hdrop : rxDispatch (datagram.take MAX_PACKET) = .drop) :
      NodeStep s (.rxRecv src datagram) s []
  | recvRequest {s : NodeState} {src : SocketAddr} {datagram : List UInt8} {req : TimeRequest}
      (hrx : s.rx = .listening) (hreq : rxDispatch (datagram.take MAX_PACKET) = .request req) :
      NodeStep s (.rxRecv src datagram) { s with rx := .request src req } []
  | recvResponse {s : NodeState} {src : SocketAddr} {datagram : List UInt8} {resp : TimeResponse}
      (hrx : s.rx = .listening) (hresp : rxDispatch (datagram.take MAX_PACKET) = .response resp) :
      NodeStep s (.rxRecv src datagram) { s with rx := .response src resp } []
  | readT2 {s : NodeState} {src : SocketAddr} {req : TimeRequest} (phc : Option UInt64)
      (sys : UInt64) (hrx : s.rx = .request src req) :
      NodeStep s (.rxReadT2 phc sys) { s with rx := .requestStamped src req (phc.getD sys) } []
  | readT3 {s : NodeState} {src : SocketAddr} {req : TimeRequest} {t2 : UInt64}
      (phc : Option UInt64) (sys : UInt64) (hrx : s.rx = .requestStamped src req t2) :
      NodeStep s (.rxReadT3 phc sys)
        { s with rx := .replying src (replyTo cfg req t2 (phc.getD sys)) } []
  | reply {s : NodeState} {dst : SocketAddr} {resp : TimeResponse}
      (hrx : s.rx = .replying dst resp) :
      NodeStep s (.rxReply true) { s with rx := .replied resp } [.replied dst resp.serialize]
  | replyFailed {s : NodeState} {dst : SocketAddr} {resp : TimeResponse}
      (hrx : s.rx = .replying dst resp) :
      NodeStep s (.rxReply false) { s with rx := .listening } []
  | latency {s : NodeState} {resp : TimeResponse} (sys : UInt64) (hrx : s.rx = .replied resp) :
      NodeStep s (.rxLatency sys) { s with rx := .listening }
        [.tsAdd (latencyWrite cfg resp sys) .service]
  | readT4 {s : NodeState} {src : SocketAddr} {resp : TimeResponse} (phc : Option UInt64)
      (sys : UInt64) (hrx : s.rx = .response src resp) :
      NodeStep s (.rxReadT4 phc sys)
        { s with rx := .responseStamped src resp (phc.getD sys) } []
  | orphan {s : NodeState} {src : SocketAddr} {resp : TimeResponse} {t4 : UInt64}
      (hrx : s.rx = .responseStamped src resp t4)
      (hnone : s.pending.lookup resp.header.seq = none) :
      NodeStep s .rxTake { s with rx := .listening } [.orphan resp]
  | mismatch {s : NodeState} {src : SocketAddr} {resp : TimeResponse} {t4 : UInt64}
      {req : PendingRequest} (hrx : s.rx = .responseStamped src resp t4)
      (hsome : s.pending.lookup resp.header.seq = some req) (hid : req.peerId ≠ resp.serverId) :
      NodeStep s .rxTake
        { s with pending := s.pending.erase resp.header.seq, rx := .listening }
        [.mismatched ⟨resp.header.seq, req⟩ resp]
  | «match» {s : NodeState} {src : SocketAddr} {resp : TimeResponse} {t4 : UInt64}
      {req : PendingRequest} (hrx : s.rx = .responseStamped src resp t4)
      (hsome : s.pending.lookup resp.header.seq = some req) (hid : req.peerId = resp.serverId) :
      NodeStep s .rxTake
        { s with
          pending := s.pending.erase resp.header.seq, rx := .matched { src, resp, t4, req } } []
  | runtime {s : NodeState} {e : Exchange} (hrx : s.rx = .matched e) :
      NodeStep s .rxRuntime
        { s with
          runtime := s.runtime.insert e.resp.serverId (nextRuntime s.runtime e)
          rx := .storing e
            (sampleWrites cfg e ((nextRuntime s.runtime e).lastJitterNs.getD 0)) } []
  | store {s : NodeState} {e : Exchange} {w : TsAdd} {rest : List TsAdd}
      (hrx : s.rx = .storing e (w :: rest)) :
      NodeStep s .rxStore
        { s with rx := if rest.isEmpty then .listening else .storing e rest }
        [.tsAdd w (.reply e)]

variable {parse cfg}

section Actions

variable {s s' : NodeState} {es : List Event}

private theorem nodeStep_txTick
    (hstep : nodeStep parse cfg s .txTick = some (s', es)) :
    NodeStep parse cfg s .txTick s' es := by
  simp only [nodeStep] at hstep
  split at hstep
  · rename_i htx
    split at hstep
    · contradiction
    · rename_i hdue
      obtain ⟨rfl, rfl⟩ := Prod.mk.inj (Option.some.inj hstep)
      by_cases hphc : cfg.phcDevice = none
      · simpa [hphc] using NodeStep.tickIdle htx (Nat.le_of_not_lt hdue) hphc
      · have hsome : cfg.phcDevice.isNone = false := by
          simpa [Option.ne_none_iff_isSome] using hphc
        simpa [hsome] using NodeStep.tick htx (Nat.le_of_not_lt hdue) hphc
  · contradiction

private theorem nodeStep_txDraw {t1 : Option UInt64}
    (hstep : nodeStep parse cfg s (.txDraw t1) = some (s', es)) :
    NodeStep parse cfg s (.txDraw t1) s' es := by
  simp only [nodeStep] at hstep
  split at hstep
  · rename_i htx
    obtain ⟨rfl, rfl⟩ := Prod.mk.inj (Option.some.inj hstep)
    cases t1 with
    | none => exact .drawFailed htx
    | some ns => exact .drew ns htx
  · contradiction

private theorem nodeStep_txSend {ok : Bool}
    (hstep : nodeStep parse cfg s (.txSend ok) = some (s', es)) :
    NodeStep parse cfg s (.txSend ok) s' es := by
  simp only [nodeStep] at hstep
  split at hstep
  · rename_i htx
    cases ok with
    | true =>
      obtain ⟨rfl, rfl⟩ := Prod.mk.inj (Option.some.inj hstep)
      exact .sent htx
    | false =>
      obtain ⟨rfl, rfl⟩ := Prod.mk.inj (Option.some.inj hstep)
      exact .sendFailed htx
  · contradiction

private theorem nodeStep_txInsert
    (hstep : nodeStep parse cfg s .txInsert = some (s', es)) :
    NodeStep parse cfg s .txInsert s' es := by
  simp only [nodeStep] at hstep
  split at hstep
  · rename_i probe todo htx
    obtain ⟨rfl, rfl⟩ := Prod.mk.inj (Option.some.inj hstep)
    cases hold : s.pending.lookup probe.seq with
    | none => exact .insert htx hold
    | some old => exact .overwrite htx hold
  · contradiction

private theorem nodeStep_txCleanup
    (hstep : nodeStep parse cfg s .txCleanup = some (s', es)) :
    NodeStep parse cfg s .txCleanup s' es := by
  simp only [nodeStep] at hstep
  split at hstep
  · rename_i htx
    obtain ⟨rfl, rfl⟩ := Prod.mk.inj (Option.some.inj hstep)
    exact .cleanup htx
  · contradiction

private theorem nodeStep_txSweep {expired : List Token}
    (hstep : nodeStep parse cfg s (.txSweep expired) = some (s', es)) :
    NodeStep parse cfg s (.txSweep expired) s' es := by
  simp only [nodeStep] at hstep
  split at hstep
  · rename_i htx
    split at hstep
    · rename_i hperm
      obtain ⟨rfl, rfl⟩ := Prod.mk.inj (Option.some.inj hstep)
      exact .sweep htx hperm
    · contradiction
  · contradiction

private theorem nodeStep_txExpire {sys : UInt64}
    (hstep : nodeStep parse cfg s (.txExpire sys) = some (s', es)) :
    NodeStep parse cfg s (.txExpire sys) s' es := by
  simp only [nodeStep] at hstep
  split at hstep
  · rename_i htx
    obtain ⟨rfl, rfl⟩ := Prod.mk.inj (Option.some.inj hstep)
    exact .expire sys htx
  · contradiction

private theorem nodeStep_rxRecv {src : SocketAddr} {datagram : List UInt8}
    (hstep : nodeStep parse cfg s (.rxRecv src datagram) = some (s', es)) :
    NodeStep parse cfg s (.rxRecv src datagram) s' es := by
  simp only [nodeStep] at hstep
  split at hstep
  · rename_i hrx
    split at hstep
    all_goals
      rename_i hdispatch
      obtain ⟨rfl, rfl⟩ := Prod.mk.inj (Option.some.inj hstep)
    · exact .recvDrop src datagram hrx hdispatch
    · exact .recvRequest hrx hdispatch
    · exact .recvResponse hrx hdispatch
  · contradiction

private theorem nodeStep_rxReadT2 {phc : Option UInt64} {sys : UInt64}
    (hstep : nodeStep parse cfg s (.rxReadT2 phc sys) = some (s', es)) :
    NodeStep parse cfg s (.rxReadT2 phc sys) s' es := by
  simp only [nodeStep] at hstep
  split at hstep
  · rename_i hrx
    obtain ⟨rfl, rfl⟩ := Prod.mk.inj (Option.some.inj hstep)
    exact .readT2 phc sys hrx
  · contradiction

private theorem nodeStep_rxReadT3 {phc : Option UInt64} {sys : UInt64}
    (hstep : nodeStep parse cfg s (.rxReadT3 phc sys) = some (s', es)) :
    NodeStep parse cfg s (.rxReadT3 phc sys) s' es := by
  simp only [nodeStep] at hstep
  split at hstep
  · rename_i hrx
    obtain ⟨rfl, rfl⟩ := Prod.mk.inj (Option.some.inj hstep)
    exact .readT3 phc sys hrx
  · contradiction

private theorem nodeStep_rxReply {ok : Bool}
    (hstep : nodeStep parse cfg s (.rxReply ok) = some (s', es)) :
    NodeStep parse cfg s (.rxReply ok) s' es := by
  simp only [nodeStep] at hstep
  split at hstep
  · rename_i hrx
    cases ok with
    | true =>
      obtain ⟨rfl, rfl⟩ := Prod.mk.inj (Option.some.inj hstep)
      exact .reply hrx
    | false =>
      obtain ⟨rfl, rfl⟩ := Prod.mk.inj (Option.some.inj hstep)
      exact .replyFailed hrx
  · contradiction

private theorem nodeStep_rxLatency {sys : UInt64}
    (hstep : nodeStep parse cfg s (.rxLatency sys) = some (s', es)) :
    NodeStep parse cfg s (.rxLatency sys) s' es := by
  simp only [nodeStep] at hstep
  split at hstep
  · rename_i hrx
    obtain ⟨rfl, rfl⟩ := Prod.mk.inj (Option.some.inj hstep)
    exact .latency sys hrx
  · contradiction

private theorem nodeStep_rxReadT4 {phc : Option UInt64} {sys : UInt64}
    (hstep : nodeStep parse cfg s (.rxReadT4 phc sys) = some (s', es)) :
    NodeStep parse cfg s (.rxReadT4 phc sys) s' es := by
  simp only [nodeStep] at hstep
  split at hstep
  · rename_i hrx
    obtain ⟨rfl, rfl⟩ := Prod.mk.inj (Option.some.inj hstep)
    exact .readT4 phc sys hrx
  · contradiction

private theorem nodeStep_rxTake
    (hstep : nodeStep parse cfg s .rxTake = some (s', es)) :
    NodeStep parse cfg s .rxTake s' es := by
  simp only [nodeStep] at hstep
  split at hstep
  · rename_i src resp t4 hrx
    cases hlook : s.pending.lookup resp.header.seq with
    | none =>
      simp only [takePending, hlook] at hstep
      obtain ⟨rfl, rfl⟩ := Prod.mk.inj (Option.some.inj hstep)
      exact .orphan hrx hlook
    | some req =>
      by_cases hid : req.peerId = resp.serverId
      · simp only [takePending, hlook, ne_eq, hid, not_true_eq_false, if_false] at hstep
        obtain ⟨rfl, rfl⟩ := Prod.mk.inj (Option.some.inj hstep)
        exact .match hrx hlook hid
      · simp only [takePending, hlook, ne_eq, hid, not_false_eq_true, if_true] at hstep
        obtain ⟨rfl, rfl⟩ := Prod.mk.inj (Option.some.inj hstep)
        exact .mismatch hrx hlook hid
  · contradiction

private theorem nodeStep_rxRuntime
    (hstep : nodeStep parse cfg s .rxRuntime = some (s', es)) :
    NodeStep parse cfg s .rxRuntime s' es := by
  simp only [nodeStep] at hstep
  split at hstep
  · rename_i hrx
    obtain ⟨rfl, rfl⟩ := Prod.mk.inj (Option.some.inj hstep)
    exact .runtime hrx
  · contradiction

private theorem nodeStep_rxStore
    (hstep : nodeStep parse cfg s .rxStore = some (s', es)) :
    NodeStep parse cfg s .rxStore s' es := by
  simp only [nodeStep] at hstep
  split at hstep
  · rename_i hrx
    obtain ⟨rfl, rfl⟩ := Prod.mk.inj (Option.some.inj hstep)
    exact .store hrx
  · contradiction

end Actions

theorem NodeStep.of_step {s s' : NodeState} {a : Action} {es : List Event}
    (hstep : (node parse cfg).step s a = some (s', es)) : NodeStep parse cfg s a s' es := by
  change nodeStep parse cfg s a = some (s', es) at hstep
  cases a with
  | advance d =>
    obtain ⟨rfl, rfl⟩ := Prod.mk.inj (Option.some.inj hstep)
    exact .advance s d
  | txTick => exact nodeStep_txTick hstep
  | txDraw => exact nodeStep_txDraw hstep
  | txSend => exact nodeStep_txSend hstep
  | txInsert => exact nodeStep_txInsert hstep
  | txCleanup => exact nodeStep_txCleanup hstep
  | txSweep => exact nodeStep_txSweep hstep
  | txExpire => exact nodeStep_txExpire hstep
  | rxRecv => exact nodeStep_rxRecv hstep
  | rxReadT2 => exact nodeStep_rxReadT2 hstep
  | rxReadT3 => exact nodeStep_rxReadT3 hstep
  | rxReply => exact nodeStep_rxReply hstep
  | rxLatency => exact nodeStep_rxLatency hstep
  | rxReadT4 => exact nodeStep_rxReadT4 hstep
  | rxTake => exact nodeStep_rxTake hstep
  | rxRuntime => exact nodeStep_rxRuntime hstep
  | rxStore => exact nodeStep_rxStore hstep

end Zeitpeer
