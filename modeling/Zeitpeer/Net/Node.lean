import Zeitpeer.Framework.Machine
import Zeitpeer.Framework.Table
import Zeitpeer.Net.Proto
import Zeitpeer.Store.Series
import Zeitpeer.Time.Calc

/-!
# The probing node

The transmit and receive tasks of `run_node` share the pending and runtime maps and nothing
else. Each task is a program counter with its local variables, and a step of the machine runs
one task up to its next shared access or await point, so every schedule of the threaded
runtime is a sequence of steps. Readings of clocks, datagrams and send results are choices of
the environment.
-/

namespace Zeitpeer

open Framework

/-- A reading of the monotonic clock, in nanoseconds. -/
abbrev Instant := Nat

def RESPONSE_TIMEOUT_MS : Nat := 400
def MAX_PACKET : Nat := 512

/-- `Duration::from_millis(RESPONSE_TIMEOUT_MS)`. -/
def responseTimeout : Nat := RESPONSE_TIMEOUT_MS * 1000000

structure SocketAddr where
  ip : List UInt8
  port : UInt16
  deriving DecidableEq, Repr

structure PendingRequest where
  peerId : UInt32
  t1Ns : Int
  sentAt : Instant
  deriving DecidableEq, Repr

structure PeerRuntime where
  lastDelayNs : Option F64 := none
  lastOffsetNs : Option F64 := none
  lastJitterNs : Option F64 := none
  deriving DecidableEq, Repr

abbrev PendingMap := Table UInt32 PendingRequest
abbrev RuntimeMap := Table UInt32 PeerRuntime

/-- One outstanding request with the sequence number it is filed under. -/
abbrev Token := Table.Entry UInt32 PendingRequest

/-- The peer entry that one pass of the burst loop probes. -/
structure Target where
  peerId : UInt32
  addr : SocketAddr
  deriving DecidableEq, Repr

/-- A probe whose request has been built. -/
structure Probe where
  seq : UInt32
  target : Target
  t1 : UInt64
  deriving DecidableEq, Repr

/-- A response that was matched with the request it answers. -/
structure Exchange where
  src : SocketAddr
  resp : TimeResponse
  t4 : UInt64
  req : PendingRequest
  deriving DecidableEq, Repr

def Exchange.token (e : Exchange) : Token := ⟨e.resp.header.seq, e.req⟩

def Exchange.calc (e : Exchange) : PairCalc :=
  computeOffsetDelay e.req.t1Ns e.resp.t2RecvNs.toNat e.resp.t3SendNs.toNat e.t4.toNat

/-- The passes of one tick: every other peer whose address parses, `burst` times each. -/
def probeTargets (parse : String → UInt16 → Option SocketAddr) (cfg : Config) : List Target :=
  (cfg.peers.filter fun p => p.id ≠ cfg.nodeId).flatMap fun p =>
    match parse p.ip p.port with
    | none => []
    | some addr => List.replicate (max (cfg.sampling.burst.getD 1) 1).toNat ⟨p.id, addr⟩

def Probe.request (cfg : Config) (p : Probe) : TimeRequest :=
  { header := Header.new MSG_REQ p.seq
    senderId := cfg.nodeId
    t1SendNs := p.t1
    reserved := Vector.replicate RESERVED_BYTES 0
    signature := Vector.replicate SIGNATURE_BYTES 0 }

def Probe.pending (p : Probe) (sentAt : Instant) : PendingRequest :=
  { peerId := p.target.peerId, t1Ns := p.t1.toNat, sentAt := sentAt }

/-- The predicate of `retain` in `cleanup_timeouts`; `duration_since` saturates at zero. -/
def keepPending (now : Instant) (_seq : UInt32) (req : PendingRequest) : Bool :=
  !(decide (responseTimeout < now - req.sentAt))

def timeoutWrite (cfg : Config) (req : PendingRequest) (ts : UInt64) : TsAdd :=
  { key := .peer req.peerId .timeouts, tsNs := ts, val := 1, windowNs := cfg.windowNs }

inductive Incoming where
  | drop
  | request (req : TimeRequest)
  | response (resp : TimeResponse)
  deriving DecidableEq, Repr

/-- The receive loop's dispatch on `buf[1]`, with the decoding and version test that open
both handlers. -/
def rxDispatch (buf : List UInt8) : Incoming :=
  match buf[1]? with
  | none => .drop
  | some kind =>
    if kind = MSG_REQ then
      match TimeRequest.deserialize buf with
      | none => .drop
      | some req => if req.header.ver ≠ WIRE_VERSION then .drop else .request req
    else if kind = MSG_RESP then
      match TimeResponse.deserialize buf with
      | none => .drop
      | some resp => if resp.header.ver ≠ WIRE_VERSION then .drop else .response resp
    else .drop

def replyTo (cfg : Config) (req : TimeRequest) (t2 t3 : UInt64) : TimeResponse :=
  { header := Header.new MSG_RESP req.header.seq
    serverId := cfg.nodeId
    t1EchoNs := req.t1SendNs
    t2RecvNs := t2
    t3SendNs := t3
    serverQuality := 100
    reserved := Vector.replicate RESERVED_BYTES 0
    signature := Vector.replicate SIGNATURE_BYTES 0 }

def latencyWrite (cfg : Config) (resp : TimeResponse) (now : UInt64) : TsAdd :=
  { key := .peer cfg.nodeId .serviceLatency
    tsNs := now
    val := F64.ofInt (max ((resp.t3SendNs.toNat : Int) - resp.t2RecvNs.toNat) 0)
    windowNs := cfg.windowNs }

/-- The outcome of looking a response up in the pending map. -/
inductive Matching where
  | orphan
  | mismatched (req : PendingRequest)
  | matched (req : PendingRequest)
  deriving DecidableEq, Repr

/-- The locked section of `handle_response`: the entry is removed before the server id is
compared, so a mismatch leaves the map without it. -/
def takePending (pending : PendingMap) (resp : TimeResponse) : Matching × PendingMap :=
  match pending.lookup resp.header.seq with
  | none => (.orphan, pending)
  | some p =>
    if p.peerId ≠ resp.serverId then (.mismatched p, pending.erase resp.header.seq)
    else (.matched p, pending.erase resp.header.seq)

def jitterOf (entry : PeerRuntime) (delay : F64) : F64 :=
  (entry.lastDelayNs.map fun prev => |delay - prev|).getD 0

def runtimeEntry (runtime : RuntimeMap) (id : UInt32) : PeerRuntime :=
  (runtime.lookup id).getD {}

/-- The runtime record that a matched response leaves behind. -/
def nextRuntime (runtime : RuntimeMap) (e : Exchange) : PeerRuntime :=
  let delay := F64.ofInt e.calc.delayNs
  { lastDelayNs := some delay
    lastOffsetNs := some (F64.ofInt e.calc.offsetNs)
    lastJitterNs := some (jitterOf (runtimeEntry runtime e.resp.serverId) delay) }

/-- The four writes of a matched response, in order. The offset and the delay are rounded to
`f64` here; `e.calc` holds them as `i128`. -/
def sampleWrites (cfg : Config) (e : Exchange) (jitter : F64) : List TsAdd :=
  [ { key := .peer e.resp.serverId .offset, tsNs := e.t4, val := F64.ofInt e.calc.offsetNs,
      windowNs := cfg.windowNs },
    { key := .peer e.resp.serverId .delay, tsNs := e.t4, val := F64.ofInt e.calc.delayNs,
      windowNs := cfg.windowNs },
    { key := .peer e.resp.serverId .jitter, tsNs := e.t4, val := jitter,
      windowNs := cfg.windowNs },
    { key := .peer e.resp.serverId .quality, tsNs := e.t4, val := e.resp.serverQuality.toNat,
      windowNs := cfg.windowNs } ]

/-- What one call of `handle_response` does to the two maps and to the store. -/
structure Handled where
  pending : PendingMap
  runtime : RuntimeMap
  exchange : Option Exchange
  writes : List TsAdd

/-- `handle_response` run without interruption, for a datagram read at `t4`. -/
def handleResponse (cfg : Config) (src : SocketAddr) (buf : List UInt8) (t4 : UInt64)
    (pending : PendingMap) (runtime : RuntimeMap) : Handled :=
  match rxDispatch buf with
  | .drop | .request _ => ⟨pending, runtime, none, []⟩
  | .response resp =>
    match takePending pending resp with
    | (.orphan, pending) | (.mismatched _, pending) => ⟨pending, runtime, none, []⟩
    | (.matched req, pending) =>
      let e : Exchange := { src, resp, t4, req }
      let entry := nextRuntime runtime e
      ⟨pending, runtime.insert resp.serverId entry, some e,
        sampleWrites cfg e (entry.lastJitterNs.getD 0)⟩

inductive TxTask where
  /-- `ticker.tick()` is awaited. -/
  | waiting
  /-- At the head of the burst loop with the passes still to make. -/
  | probing (todo : List Target)
  /-- The request is built and `send_to` is awaited. -/
  | sending (probe : Probe) (todo : List Target)
  /-- The datagram is out and the pending lock is awaited. -/
  | sent (probe : Probe) (todo : List Target)
  /-- `cleanup_timeouts` has read its instant and awaits the pending lock. -/
  | sweeping (now : Instant)
  /-- Requests expired by the last sweep whose timeout is still to be written. -/
  | expiring (expired : List Token)
  deriving DecidableEq

inductive RxTask where
  | listening
  | request (src : SocketAddr) (req : TimeRequest)
  | requestStamped (src : SocketAddr) (req : TimeRequest) (t2 : UInt64)
  | replying (dst : SocketAddr) (resp : TimeResponse)
  | replied (resp : TimeResponse)
  | response (src : SocketAddr) (resp : TimeResponse)
  | responseStamped (src : SocketAddr) (resp : TimeResponse) (t4 : UInt64)
  | matched (e : Exchange)
  | storing (e : Exchange) (writes : List TsAdd)
  deriving DecidableEq

structure NodeState where
  now : Instant := 0
  deadline : Instant := 0
  seq : UInt32 := 1
  pending : PendingMap := ∅
  runtime : RuntimeMap := ∅
  tx : TxTask := .waiting
  rx : RxTask := .listening

inductive Action where
  | advance (d : Nat)
  | txTick
  /-- Draw a sequence number and read `t1`; the read may fail. -/
  | txDraw (t1 : Option UInt64)
  | txSend (ok : Bool)
  | txInsert
  | txCleanup
  /-- Lock and retain; the expired requests come in the map's iteration order. -/
  | txSweep (expired : List Token)
  | txExpire (sys : UInt64)
  | rxRecv (src : SocketAddr) (datagram : List UInt8)
  | rxReadT2 (phc : Option UInt64) (sys : UInt64)
  | rxReadT3 (phc : Option UInt64) (sys : UInt64)
  | rxReply (ok : Bool)
  | rxLatency (sys : UInt64)
  | rxReadT4 (phc : Option UInt64) (sys : UInt64)
  | rxTake
  | rxRuntime
  | rxStore
  deriving DecidableEq

/-- Why a series is written. -/
inductive Cause where
  | reply (e : Exchange)
  | expiry (t : Token)
  | service
  deriving DecidableEq

inductive Event where
  | drew (seq : UInt32) (target : Target) (t1 : Option UInt64)
  | probed (probe : Probe) (payload : List UInt8)
  | inserted (t : Token)
  /-- The value that `HashMap::insert` returns and the source ignores. -/
  | displaced (t : Token)
  | replied (dst : SocketAddr) (payload : List UInt8)
  | orphan (resp : TimeResponse)
  | mismatched (t : Token) (resp : TimeResponse)
  | tsAdd (write : TsAdd) (cause : Cause)
  deriving DecidableEq

/-- The ticker's period in nanoseconds. -/
def tickPeriod (cfg : Config) : Nat := (max cfg.sampling.intervalMs 1).toNat * 1000000

def nodeStep (parse : String → UInt16 → Option SocketAddr) (cfg : Config) (s : NodeState) :
    Action → Option (NodeState × List Event)
  | .advance d => some ({ s with now := s.now + d }, [])
  | .txTick =>
    match s.tx with
    | .waiting =>
      if s.now < s.deadline then none
      else
        -- without a clock device the loop continues before probing and before the sweep
        let tx := if cfg.phcDevice.isNone then .waiting else .probing (probeTargets parse cfg)
        some ({ s with deadline := s.deadline + tickPeriod cfg, tx := tx }, [])
    | _ => none
  | .txDraw t1 =>
    match s.tx with
    | .probing (target :: todo) =>
      let tx := match t1 with
        | none => .probing todo
        | some ns => .sending ⟨s.seq, target, ns⟩ todo
      some ({ s with seq := s.seq + 1, tx := tx }, [.drew s.seq target t1])
    | _ => none
  | .txSend ok =>
    match s.tx with
    | .sending probe todo =>
      if ok then
        some ({ s with tx := .sent probe todo }, [.probed probe (probe.request cfg).serialize])
      else some ({ s with tx := .probing todo }, [])
    | _ => none
  | .txInsert =>
    match s.tx with
    | .sent probe todo =>
      let req := probe.pending s.now
      let old := (s.pending.lookup probe.seq).toList.map fun p => Event.displaced ⟨probe.seq, p⟩
      some ({ s with pending := s.pending.insert probe.seq req, tx := .probing todo },
        .inserted ⟨probe.seq, req⟩ :: old)
    | _ => none
  | .txCleanup =>
    match s.tx with
    | .probing [] => some ({ s with tx := .sweeping s.now }, [])
    | _ => none
  | .txSweep expired =>
    match s.tx with
    | .sweeping now =>
      if expired.Perm (Table.evicted (keepPending now) s.pending) then
        some ({ s with
          pending := Table.retain (keepPending now) s.pending
          tx := if expired.isEmpty then .waiting else .expiring expired }, [])
      else none
    | _ => none
  | .txExpire sys =>
    match s.tx with
    | .expiring (t :: rest) =>
      some ({ s with tx := if rest.isEmpty then .waiting else .expiring rest },
        [.tsAdd (timeoutWrite cfg t.2 sys) (.expiry t)])
    | _ => none
  | .rxRecv src datagram =>
    match s.rx with
    | .listening =>
      match rxDispatch (datagram.take MAX_PACKET) with
      | .drop => some (s, [])
      | .request req => some ({ s with rx := .request src req }, [])
      | .response resp => some ({ s with rx := .response src resp }, [])
    | _ => none
  | .rxReadT2 phc sys =>
    match s.rx with
    | .request src req => some ({ s with rx := .requestStamped src req (phc.getD sys) }, [])
    | _ => none
  | .rxReadT3 phc sys =>
    match s.rx with
    | .requestStamped src req t2 =>
      some ({ s with rx := .replying src (replyTo cfg req t2 (phc.getD sys)) }, [])
    | _ => none
  | .rxReply ok =>
    match s.rx with
    | .replying dst resp =>
      if ok then some ({ s with rx := .replied resp }, [.replied dst resp.serialize])
      else some ({ s with rx := .listening }, [])
    | _ => none
  | .rxLatency sys =>
    match s.rx with
    | .replied resp =>
      some ({ s with rx := .listening }, [.tsAdd (latencyWrite cfg resp sys) .service])
    | _ => none
  | .rxReadT4 phc sys =>
    match s.rx with
    | .response src resp => some ({ s with rx := .responseStamped src resp (phc.getD sys) }, [])
    | _ => none
  | .rxTake =>
    match s.rx with
    | .responseStamped src resp t4 =>
      match takePending s.pending resp with
      | (.orphan, pending) =>
        some ({ s with pending := pending, rx := .listening }, [.orphan resp])
      | (.mismatched p, pending) =>
        some ({ s with pending := pending, rx := .listening },
          [.mismatched ⟨resp.header.seq, p⟩ resp])
      | (.matched req, pending) =>
        some ({ s with pending := pending, rx := .matched { src, resp, t4, req } }, [])
    | _ => none
  | .rxRuntime =>
    match s.rx with
    | .matched e =>
      let entry := nextRuntime s.runtime e
      some ({ s with
        runtime := s.runtime.insert e.resp.serverId entry
        rx := .storing e (sampleWrites cfg e (entry.lastJitterNs.getD 0)) }, [])
    | _ => none
  | .rxStore =>
    match s.rx with
    | .storing e (w :: rest) =>
      some ({ s with rx := if rest.isEmpty then .listening else .storing e rest },
        [.tsAdd w (.reply e)])
    | _ => none

/-- The tasks of one node, driven by its environment. -/
def node (parse : String → UInt16 → Option SocketAddr) (cfg : Config) :
    Machine NodeState Action Event :=
  ⟨nodeStep parse cfg⟩

end Zeitpeer
