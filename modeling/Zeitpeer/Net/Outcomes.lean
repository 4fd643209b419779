import Zeitpeer.Net.Provenance

/-!
# Outcomes of probes

What the receive and transmit tasks may file about a probe: at most one outcome, always under
the peer it was sent to, and for a sample always from a response that met the outstanding
request. A response that is not recorded leaves the maps alone except in one case, and that
case is exactly where a probe disappears from the accounts.
-/

namespace Zeitpeer

open Framework Machine

variable {parse : String → UInt16 → Option SocketAddr} {cfg : Config}

/-- A write under a peer's offsets is the sample of a probe, and one under its timeouts is the
timeout of a probe; the token carries that peer's id. -/
theorem WriteOrigin.filed {ts : List NodeTurn} {w : TsAdd} {c : Cause} {p : UInt32}
    (h : WriteOrigin cfg ts w c) :
    (w.key = .peer p .offset → ∃ e, c = .reply e ∧ e.resp.serverId = p ∧ Matched ts e ∧
      w.val = F64.ofInt e.calc.offsetNs ∧ sampleOf w c = some e.token) ∧
    (w.key = .peer p .timeouts → ∃ t, c = .expiry t ∧ t.2.peerId = p ∧
      timeoutOf w c = some t) := by
  cases c with
  | reply e =>
    obtain ⟨hmatched, jitter, hmem⟩ := h
    simp only [sampleWrites, List.mem_cons, List.not_mem_nil, or_false] at hmem
    rcases hmem with rfl | rfl | rfl | rfl
    · refine ⟨?_, by simp⟩
      intro hkey
      simp only [SeriesKey.peer.injEq, and_true] at hkey
      exact ⟨e, rfl, hkey, hmatched, rfl, rfl⟩
    all_goals simp
  | expiry t =>
    obtain ⟨sys, rfl⟩ := h
    refine ⟨by simp [timeoutWrite], ?_⟩
    intro hkey
    simp only [timeoutWrite, SeriesKey.peer.injEq, and_true] at hkey
    exact ⟨t, rfl, hkey, rfl⟩
  | service =>
    have hkey : w.key = .peer cfg.nodeId .serviceLatency := h
    simp [hkey]

private theorem timedOut_mem {es : List Event} {w : TsAdd} {c : Cause} {t : Token}
    (hmem : .tsAdd w c ∈ es) (ht : timeoutOf w c = some t) : t ∈ tally Event.timedOut? es :=
  mem_tally.mpr ⟨_, hmem, ht⟩

/-- No probe has two outcomes, and every sample or timeout filed under a peer stems from a
probe that was sent to it. -/
theorem outcome_unique {ts : List NodeTurn} {s : NodeState}
    (hrun : (node parse cfg).Run {} ts s) (hfew : (drawn (events ts)).length < 2 ^ 32) :
    ((tally Event.sampled? (events ts) + tally Event.timedOut? (events ts)).map
      Sigma.fst).Nodup ∧
    ∀ w c p, .tsAdd w c ∈ events ts → (w.key = .peer p .offset ∨ w.key = .peer p .timeouts) →
      ∃ probe : Probe, ∃ sentAt : Instant,
        (sampleOf w c = some ⟨probe.seq, probe.pending sentAt⟩ ∨
          timeoutOf w c = some ⟨probe.seq, probe.pending sentAt⟩) ∧
        probe.target.peerId = p ∧ probe.target ∈ probeTargets parse cfg ∧
        .probed probe (probe.request cfg).serialize ∈ events ts := by
  constructor
  · have hsplit : s.held + tally Event.sampled? (events ts) + tally Event.timedOut? (events ts) +
        tally Event.lost? (events ts) =
        (tally Event.sampled? (events ts) + tally Event.timedOut? (events ts)) +
          (s.held + tally Event.lost? (events ts)) := by abel
    have hplaces := nodup_places hrun hfew
    rw [hsplit, Multiset.map_add] at hplaces
    apply Multiset.nodup_of_le _ hplaces
    rw [add_assoc]
    exact Multiset.le_add_right _ _
  · intro w c p hmem hkey
    have horigin := ((run_backed hrun).writes w c hmem).filed (p := p)
    rcases hkey with hkey | hkey
    · obtain ⟨e, rfl, hserver, hmatched, _, hsample⟩ := horigin.1 hkey
      obtain ⟨probe, hprobed, htarget, htoken⟩ := hmatched.probed hrun
      refine ⟨probe, e.req.sentAt, .inl ?_, ?_, htarget, hprobed⟩
      · rw [hsample, htoken]
        rfl
      · have hpeer := congrArg (fun t : Token => t.2.peerId) htoken
        exact hpeer.symm.trans (hmatched.server.trans hserver)
    · obtain ⟨t, rfl, hpeer, htimeout⟩ := horigin.2 hkey
      have hplace := inserted_of_place hrun (t := t) (by
        simp only [Multiset.mem_add]
        exact .inl (.inr (timedOut_mem hmem htimeout)))
      obtain ⟨probe, hprobed, htarget, htoken⟩ := (run_sourced hrun).inserted _ hplace
      refine ⟨probe, t.2.sentAt, .inr ?_, ?_, htarget, hprobed⟩
      · rw [htimeout]
        exact congrArg some htoken
      · have hprobe := congrArg (fun t : Token => t.2.peerId) htoken
        exact hprobe.symm.trans hpeer

/-- A node that probes one peer once a second. -/
def demoConfig : Config :=
  { nodeId := 1
    phcDevice := some "/dev/ptp0"
    sampling := { intervalMs := 1000, windowSec := 30 }
    filter := { lambda := 1 / 4, trimRatio := 1 / 10, bestQuantile := 3 / 5,
                minSamplesPerPeer := 5 }
    peers := [{ id := 2, ip := "10.0.0.2", port := 32002 }] }

def demoParse (_ip : String) (port : UInt16) : Option SocketAddr := some ⟨[10, 0, 0, 2], port⟩

/-- A response to the first probe, in the name of `server`. -/
def demoResponse (server : UInt32) (t1 t2 t3 : UInt64) : TimeResponse :=
  { header := Header.new MSG_RESP 1
    serverId := server
    t1EchoNs := t1
    t2RecvNs := t2
    t3SendNs := t3
    serverQuality := 100
    reserved := Vector.replicate RESERVED_BYTES 0
    signature := Vector.replicate SIGNATURE_BYTES 0 }

/-- The transmit task's part of the first tick. -/
def demoProbe : List Action := [.txTick, .txDraw (some 1000), .txSend true, .txInsert]

/-- The receive task taking in one response. -/
def demoReceive (src : SocketAddr) (resp : TimeResponse) (t4 : UInt64) : List Action :=
  [.rxRecv src resp.serialize, .rxReadT4 (some t4) 0, .rxTake]

def demoStore : List Action := [.rxRuntime, .rxStore, .rxStore, .rxStore, .rxStore]

/-- One probe, answered by the peer and recorded. -/
def demoSample : List Action :=
  demoProbe ++ demoReceive ⟨[10, 0, 0, 2], 32002⟩ (demoResponse 2 1000 1100 1200) 1300 ++ demoStore

theorem demoSample_runs : ((node demoParse demoConfig).exec {} demoSample).isSome = true := by rfl

/-- The response arrives once more, and a second probe is not answered. -/
def demoOutcomes : List Action :=
  demoSample ++ demoReceive ⟨[10, 0, 0, 2], 32002⟩ (demoResponse 2 1000 1100 1200) 1400 ++
    [.txCleanup, .txSweep [], .advance 1000000000, .txTick, .txDraw (some 1000001000), .txSend true,
      .txInsert, .txCleanup, .txSweep [], .advance 1000000000, .txTick, .txDraw none, .txCleanup,
      .txSweep [⟨2, { peerId := 2, t1Ns := 1000001000, sentAt := 1000000000 }⟩],
      .txExpire 2000001000]

theorem demoOutcomes_runs : ((node demoParse demoConfig).exec {} demoOutcomes).isSome = true := by
  decide +kernel

/-- The numbers of the probes that have an outcome. -/
def demoSettled : Multiset UInt32 :=
  (tally Event.sampled? (events ((node demoParse demoConfig).turnsOf {} demoOutcomes)) +
    tally Event.timedOut? (events ((node demoParse demoConfig).turnsOf {} demoOutcomes))).map
      Sigma.fst

theorem outcome_unique_demo : demoSettled = {1, 2} ∧ demoSettled.Nodup :=
  ⟨by decide +kernel, (outcome_unique (Run.of_actions demoOutcomes_runs) (by decide +kernel)).1⟩

private theorem rxDispatch_response {buf : List UInt8} {resp : TimeResponse}
    (h : rxDispatch buf = .response resp) :
    TimeResponse.deserialize buf = some resp ∧ resp.header.ver = WIRE_VERSION := by
  unfold rxDispatch at h
  split at h
  · contradiction
  · split at h
    · split at h
      · contradiction
      · split at h <;> contradiction
    · split at h
      · split at h
        · contradiction
        · rename_i resp' hdec
          split at h
          · contradiction
          · rename_i hver
            obtain rfl := Incoming.response.inj h
            exact ⟨hdec, not_not.mp hver⟩
      · contradiction

/-- Every sample filed under a peer comes from a decodable response of this version in the
peer's name, which met the outstanding request of an earlier probe to that peer, and it is
computed with the time that probe carried. -/
theorem sample_backed {ts : List NodeTurn} {s : NodeState} {w : TsAdd} {c : Cause} {p : UInt32}
    (hrun : (node parse cfg).Run {} ts s) (hmem : .tsAdd w c ∈ events ts)
    (hkey : w.key = .peer p .offset) :
    ∃ e before t rest, ∃ probe : Probe, c = .reply e ∧ e.resp.serverId = p ∧
      e.resp.header.ver = WIRE_VERSION ∧ ts = before ++ t :: rest ∧ t.action = .rxTake ∧
      t.before.rx = .responseStamped e.src e.resp e.t4 ∧ Received before e.src e.resp ∧
      t.before.pending.lookup e.resp.header.seq = some e.req ∧
      .probed probe (probe.request cfg).serialize ∈ events before ∧
      probe.seq = e.resp.header.seq ∧ probe.target.peerId = p ∧
      probe.target ∈ probeTargets parse cfg ∧
      w.val = F64.ofInt (computeOffsetDelay probe.t1.toNat e.resp.t2RecvNs.toNat
        e.resp.t3SendNs.toNat e.t4.toNat).offsetNs := by
  obtain ⟨e, rfl, hserver, hmatched, hval, _⟩ :=
    (((run_backed hrun).writes w c hmem).filed (p := p)).1 hkey
  obtain ⟨_, _, datagram, _, hdispatch⟩ := hmatched.received
  obtain ⟨t, ht, haction, hrx, hlook⟩ := hmatched.taken
  obtain ⟨before, rest, rfl⟩ := List.append_of_mem ht
  have hbefore := hrun.middle.1
  have hplace := inserted_of_pending hbefore hlook
  obtain ⟨probe, hprobed, htarget, htoken⟩ := (run_sourced hbefore).inserted _ hplace
  have hseq : e.resp.header.seq = probe.seq := congrArg (fun t : Token => t.1) htoken
  have hreq : e.req = probe.pending e.req.sentAt := congrArg (fun t : Token => t.2) htoken
  have hreceived : Received before e.src e.resp := by
    have horigin := (run_backed hbefore).rx
    rw [hrx] at horigin
    exact horigin
  refine ⟨e, before, t, rest, probe, rfl, hserver, (rxDispatch_response hdispatch).2, rfl, haction,
    hrx, hreceived, hlook, hprobed, hseq.symm, ?_, htarget, ?_⟩
  · have hpeer := congrArg PendingRequest.peerId hreq
    exact hpeer.symm.trans (hmatched.server.trans hserver)
  · have ht1 := congrArg PendingRequest.t1Ns hreq
    rw [hval, Exchange.calc, ht1]
    rfl

/-- The response came from the address of the peer it names, echoes the time of the probe it
answers and orders its times the way a genuine exchange does. -/
def Genuine (parse : String → UInt16 → Option SocketAddr) (cfg : Config) (e : Exchange) : Prop :=
  (∃ target ∈ probeTargets parse cfg,
    target.peerId = e.resp.serverId ∧ target.addr = e.src) ∧
  (e.resp.t1EchoNs.toNat : Int) = e.req.t1Ns ∧ e.resp.t2RecvNs ≤ e.resp.t3SendNs ∧
  0 ≤ e.calc.delayNs

/-- A forged response from a foreign address, with another echo and an impossible delay. -/
def demoForgery : List Action :=
  demoProbe ++ demoReceive ⟨[6, 6, 6, 6], 53⟩ (demoResponse 2 7 0 1000000) 1300 ++ demoStore

private theorem demoForgery_runs :
    ((node demoParse demoConfig).exec {} demoForgery).isSome = true := by
  rfl

theorem sample_not_genuine :
    ¬ ∀ ts s, (node demoParse demoConfig).Run {} ts s → ∀ w e, .tsAdd w (.reply e) ∈ events ts →
      w.key = .peer e.resp.serverId .offset → Genuine demoParse demoConfig e := by
  intro hgenuine
  have hforged := hgenuine _ _ (Run.of_actions demoForgery_runs)
    { key := .peer 2 .offset, tsNs := 1300, val := 498850, windowNs := 30000000000 }
    { src := ⟨[6, 6, 6, 6], 53⟩, resp := demoResponse 2 7 0 1000000, t4 := 1300,
      req := { peerId := 2, t1Ns := 1000, sentAt := 0 } } (by decide +kernel) rfl
  exact absurd hforged.2.1 (by decide)

/-- The exchange of the recorded sample. -/
def demoExchange : Exchange :=
  { src := ⟨[10, 0, 0, 2], 32002⟩
    resp := demoResponse 2 1000 1100 1200
    t4 := 1300
    req := { peerId := 2, t1Ns := 1000, sentAt := 0 } }

theorem sample_backed_demo :
    ∃ probe : Probe, .probed probe (probe.request demoConfig).serialize ∈
      events ((node demoParse demoConfig).turnsOf {} demoSample) ∧ probe.target.peerId = 2 := by
  obtain ⟨_, before, t, rest, probe, _, _, _, hts, _, _, _, _, hprobed, _, hpeer, _⟩ :=
    sample_backed (Run.of_actions demoSample_runs)
      (w := { key := .peer 2 .offset, tsNs := 1300, val := 0, windowNs := 30000000000 })
      (c := .reply demoExchange) (by decide +kernel) rfl
  refine ⟨probe, ?_, hpeer⟩
  rw [hts]
  exact mem_events_earlier hprobed

end Zeitpeer
