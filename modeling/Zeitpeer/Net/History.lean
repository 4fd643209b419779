import Zeitpeer.Framework.History
import Zeitpeer.Net.Leftovers
import Zeitpeer.Net.Torn

/-!
# What is measured from one exchange to the next

Jitter and drift compare an exchange with the one before it with the same peer or server. What
the tasks write under them is a function of the delays and offsets they write, however the
exchanges with several peers are interleaved and whatever comes between them.
-/

namespace Zeitpeer

open Framework Machine

/-- The stamps and values that writes give a series. -/
def entriesOf (key : SeriesKey) (ws : List TsAdd) : List (UInt64 × F64) :=
  (ws.filter fun w => w.key = key).map fun w => (w.tsNs, w.val)

@[simp] theorem entriesOf_nil (key : SeriesKey) : entriesOf key [] = [] := rfl

@[simp] theorem entriesOf_append (key : SeriesKey) (ws ws' : List TsAdd) :
    entriesOf key (ws ++ ws') = entriesOf key ws ++ entriesOf key ws' := by
  simp [entriesOf]

private theorem entriesOf_cons (key : SeriesKey) (w : TsAdd) (ws : List TsAdd) :
    entriesOf key (w :: ws) =
      (if w.key = key then [(w.tsNs, w.val)] else []) ++ entriesOf key ws := by
  by_cases hkey : w.key = key <;> simp [entriesOf, hkey]

/-- The jitter of an exchange: how far its delay is from the one before. -/
def jitterEntry (prev : Option (UInt64 × F64)) (x : UInt64 × F64) : UInt64 × F64 :=
  (x.1, (prev.map fun p => |x.2 - p.2|).getD 0)

/-- The drift of an exchange: how fast the offset has changed since the one before, if time has
passed. -/
def driftEntry (prev : Option (UInt64 × F64)) (x : UInt64 × F64) : UInt64 × F64 :=
  (x.1, (prev.map fun p =>
    if p.1 < x.1 then (x.2 - p.2) / (x.1 - p.1).toNat * 1000000 else 0).getD 0)

section Node

variable {parse : String → UInt16 → Option SocketAddr} {cfg : Config}

def Event.stored? : Event → Option TsAdd
  | .tsAdd w _ => some w
  | _ => none

/-- What a node has written. -/
def nodeWrites (es : List Event) : List TsAdd := es.filterMap Event.stored?

/-- What the receive task still has to write. -/
def RxTask.ahead : RxTask → List TsAdd
  | .storing _ ws => ws
  | _ => []

@[simp] theorem nodeWrites_append (es fs : List Event) :
    nodeWrites (es ++ fs) = nodeWrites es ++ nodeWrites fs := by
  simp [nodeWrites]

/-- The jitters of a peer follow from its delays, and the last delay is remembered. -/
structure Jittered (p : UInt32) (ws : List TsAdd) (s : NodeState) : Prop where
  jitters : entriesOf (.peer p .jitter) ws = derived jitterEntry (entriesOf (.peer p .delay) ws)
  last : (s.runtime.lookup p).bind PeerRuntime.lastDelayNs =
    ((entriesOf (.peer p .delay) ws).getLast?).map Prod.snd

private theorem entriesOf_sampleWrites (cfg : Config) (p : UInt32) (e : Exchange) (jitter : F64) :
    entriesOf (.peer p .jitter) (sampleWrites cfg e jitter) =
        (if e.resp.serverId = p then [(e.t4, jitter)] else []) ∧
      entriesOf (.peer p .delay) (sampleWrites cfg e jitter) =
        (if e.resp.serverId = p then [(e.t4, F64.ofInt e.calc.delayNs)] else []) := by
  by_cases hserver : e.resp.serverId = p <;> simp [entriesOf, sampleWrites, hserver]

private theorem jitterOf_runtimeEntry (runtime : RuntimeMap) (id : UInt32) (delay : F64) :
    jitterOf (runtimeEntry runtime id) delay =
      (((runtime.lookup id).bind PeerRuntime.lastDelayNs).map
        fun prev => |delay - prev|).getD 0 := by
  rw [jitterOf, runtimeEntry]
  cases runtime.lookup id <;> rfl

private theorem Jittered.record {p : UInt32} {ws : List TsAdd} {s : NodeState} (h : Jittered p ws s)
    (cfg : Config) (e : Exchange) (rx : RxTask) :
    Jittered p
      (ws ++ sampleWrites cfg e ((nextRuntime s.runtime e).lastJitterNs.getD 0))
      { s with
        runtime := s.runtime.insert e.resp.serverId (nextRuntime s.runtime e)
        rx := rx } := by
  obtain ⟨hjitter, hdelay⟩ := entriesOf_sampleWrites cfg p e
    ((nextRuntime s.runtime e).lastJitterNs.getD 0)
  by_cases hserver : e.resp.serverId = p
  · rw [if_pos hserver] at hjitter hdelay
    refine ⟨?_, ?_⟩
    · have hvalue : (nextRuntime s.runtime e).lastJitterNs.getD 0 =
          (jitterEntry (entriesOf (.peer p .delay) ws).getLast?
            (e.t4, F64.ofInt e.calc.delayNs)).2 := by
        rw [nextRuntime, Option.getD_some, jitterOf_runtimeEntry, hserver, h.last, jitterEntry,
          Option.map_map]
        rfl
      rw [entriesOf_append, entriesOf_append, hjitter, hdelay, derived_concat, h.jitters, hvalue]
      rfl
    · rw [entriesOf_append, hdelay, List.getLast?_concat]
      subst hserver
      simp [AList.lookup_insert, nextRuntime]
  · rw [if_neg hserver] at hjitter hdelay
    refine ⟨?_, ?_⟩
    · rw [entriesOf_append, entriesOf_append, hjitter, hdelay, List.append_nil, List.append_nil]
      exact h.jitters
    · rw [entriesOf_append, hdelay, List.append_nil, ← h.last]
      simp [AList.lookup_insert_ne (Ne.symm hserver)]

/-- A step either leaves what is written and to be written about a peer as it is, or it records an
exchange that the receive task has matched. -/
private theorem NodeStep.writes_ahead {s s' : NodeState} {a : Action} {es : List Event}
    (hstep : NodeStep parse cfg s a s' es) :
    (s'.runtime = s.runtime ∧ ∃ other, (∀ w ∈ other, ∀ p, w.key ≠ .peer p .delay ∧
        w.key ≠ .peer p .jitter) ∧ nodeWrites es ++ s'.rx.ahead = other ++ s.rx.ahead) ∨
      ∃ e, s.rx = .matched e ∧ nodeWrites es = [] ∧
        s'.runtime = s.runtime.insert e.resp.serverId (nextRuntime s.runtime e) ∧
        s'.rx.ahead = sampleWrites cfg e ((nextRuntime s.runtime e).lastJitterNs.getD 0) := by
  cases hstep with
  | @expire t rest sys htx =>
    exact .inl ⟨rfl, [timeoutWrite cfg t.2 sys], by simp [timeoutWrite], rfl⟩
  | @latency resp sys hrx =>
    exact .inl ⟨rfl, [latencyWrite cfg resp sys], by simp [latencyWrite], by rw [hrx]; rfl⟩
  | runtime hrx => exact .inr ⟨_, hrx, rfl, rfl, rfl⟩
  | @store e w rest hrx =>
    refine .inl ⟨rfl, [], by simp, ?_⟩
    rw [hrx]
    cases rest <;> rfl
  | recvRequest hrx
  | recvResponse hrx
  | readT2 _ _ hrx
  | readT3 _ _ hrx
  | reply hrx
  | replyFailed hrx
  | readT4 _ _ hrx
  | orphan hrx
  | mismatch hrx
  | «match» hrx =>
    refine .inl ⟨rfl, [], by simp, ?_⟩
    rw [hrx]
    rfl
  | _ => exact .inl ⟨rfl, [], by simp, rfl⟩

private theorem entriesOf_other {p : UInt32} {ws : List TsAdd} (metric : PeerMetric)
    (hother : ∀ w ∈ ws, w.key ≠ .peer p metric) : entriesOf (.peer p metric) ws = [] := by
  rw [entriesOf, List.filter_eq_nil_iff.mpr, List.map_nil]
  simpa using hother

/-- In every run the jitters that a node has written for a peer, and has to write, are those that
follow from the delays it has written and has to write for this peer, one after the other. -/
theorem jitters_follow_delays (p : UInt32) {ts : List NodeTurn} {s : NodeState}
    (hrun : (node parse cfg).Run {} ts s) :
    Jittered p (nodeWrites (events ts) ++ s.rx.ahead) s := by
  refine hrun.invariant (I := fun ts s => Jittered p (nodeWrites (events ts) ++ s.rx.ahead) s)
    ⟨rfl, rfl⟩ ?_
  intro ts s a s' es _ ih hstep
  rw [events_append, events_singleton, nodeWrites_append, List.append_assoc]
  rcases (NodeStep.of_step hstep).writes_ahead with
    ⟨hruntime, other, hother, hahead⟩ | ⟨e, hrx, hnone, hruntime, hahead⟩
  · have hdelay := entriesOf_other .delay fun w hw => (hother w hw p).1
    have hjitter := entriesOf_other .jitter fun w hw => (hother w hw p).2
    obtain ⟨hjitters, hlast⟩ := ih
    rw [hahead]
    simp only [entriesOf_append] at hjitters hlast
    refine ⟨?_, ?_⟩
    · simpa only [entriesOf_append, hdelay, hjitter, List.nil_append] using hjitters
    · simpa only [entriesOf_append, hdelay, List.nil_append, hruntime] using hlast
  · have hbefore : s.rx.ahead = [] := by rw [hrx]; rfl
    rw [hbefore, List.append_nil] at ih
    rw [hnone, hahead, List.nil_append]
    have hrecord := ih.record cfg e s'.rx
    refine ⟨hrecord.jitters, ?_⟩
    rw [hruntime]
    exact hrecord.last

/-- A second probe, answered after a second. -/
def demoTwice : List Action :=
  demoSample ++ [.advance 1000000000, .txCleanup, .txSweep [], .txTick, .txDraw (some 2000),
      .txSend true, .txInsert] ++
    demoReceive ⟨[10, 0, 0, 2], 32002⟩
      { demoResponse 2 2000 2100 2200 with header := Header.new MSG_RESP 2 } 2700 ++ demoStore

theorem jitters_follow_delays_demo :
    Jittered 2 (nodeWrites (events ((node demoParse demoConfig).turnsOf {} demoTwice)) ++
        ((node demoParse demoConfig).stateAfter {} demoTwice).rx.ahead)
      ((node demoParse demoConfig).stateAfter {} demoTwice) ∧
    entriesOf (.peer 2 .jitter)
      (nodeWrites (events ((node demoParse demoConfig).turnsOf {} demoTwice))) =
        [(1300, 0), (2700, 400)] :=
  ⟨jitters_follow_delays 2 (Run.of_actions (by rfl)), by decide +kernel⟩

end Node

section Poller

variable {cfg : Config} {src : NtpSource}

def PollerEvent.stored? : PollerEvent → Option TsAdd
  | .tsAdd w => some w
  | _ => none

/-- What a poller has written. -/
def pollerWrites (es : List PollerEvent) : List TsAdd := es.filterMap PollerEvent.stored?

/-- What a poller still has to write, as far as it knows. -/
def PollerTask.unwritten : PollerTask → List TsAdd
  | .storing _ todo _ => todo.filterMap PollerEffect.write?
  | _ => []

@[simp] theorem pollerWrites_append (es fs : List PollerEvent) :
    pollerWrites (es ++ fs) = pollerWrites es ++ pollerWrites fs := by
  simp [pollerWrites]

/-- The jitters and drifts of a server follow from its delays and offsets, and the last of these
are remembered. -/
structure Compared (id : UInt32) (ws : List TsAdd) (s : PollerState) : Prop where
  jitters : entriesOf (.ntp id .jitter) ws = derived jitterEntry (entriesOf (.ntp id .delay) ws)
  drifts : entriesOf (.ntp id .driftPpm) ws = derived driftEntry (entriesOf (.ntp id .offset) ws)
  lastDelay : s.lastDelay = (entriesOf (.ntp id .delay) ws).getLast?.map Prod.snd
  lastOffset : s.lastOffset = (entriesOf (.ntp id .offset) ws).getLast?.map Prod.snd
  lastTs : s.lastTs = (entriesOf (.ntp id .offset) ws).getLast?.map Prod.fst

/-- The metrics that a comparison with the exchange before is about. -/
def NtpMetric.compared : NtpMetric → Bool
  | .offset | .delay | .jitter | .driftPpm => true
  | _ => false

private theorem driftPpm_eq (s : PollerState) (sample : NtpSample) {last : Option (UInt64 × F64)}
    (hoffset : s.lastOffset = last.map Prod.snd) (hts : s.lastTs = last.map Prod.fst) :
    driftPpm s sample = (driftEntry last (sample.timestampNs, sample.offsetNs)).2 := by
  rw [driftPpm, hoffset, hts, driftEntry]
  cases last <;> rfl

private theorem entriesOf_sampled (cfg : Config) (src : NtpSource) (s : PollerState)
    (sample : NtpSample) :
    entriesOf (.ntp src.id .offset) (s.sampled cfg src sample).task.unwritten =
        [(sample.timestampNs, (sample.offsetNs : F64))] ∧
      entriesOf (.ntp src.id .delay) (s.sampled cfg src sample).task.unwritten =
        [(sample.timestampNs, (sample.delayNs : F64))] ∧
      entriesOf (.ntp src.id .jitter) (s.sampled cfg src sample).task.unwritten =
        [(sample.timestampNs, (measure s sample).jitter)] ∧
      entriesOf (.ntp src.id .driftPpm) (s.sampled cfg src sample).task.unwritten =
        [(sample.timestampNs, driftPpm s sample)] := by
  simp [PollerState.sampled, PollerTask.unwritten, storeEffects, ntpAdd, PollerEffect.write?,
    entriesOf, measure]

private theorem Compared.record {ws : List TsAdd} {s : PollerState} (h : Compared src.id ws s)
    (sample : NtpSample) :
    Compared src.id (ws ++ (s.sampled cfg src sample).task.unwritten)
      (s.sampled cfg src sample) := by
  obtain ⟨hoffset, hdelay, hjitter, hdrift⟩ := entriesOf_sampled cfg src s sample
  have hjitterVal : (measure s sample).jitter =
      (jitterEntry (entriesOf (.ntp src.id .delay) ws).getLast?
        (sample.timestampNs, sample.delayNs)).2 := by
    rw [measure, h.lastDelay, jitterEntry, Option.map_map]
    rfl
  have hdriftVal := driftPpm_eq s sample h.lastOffset h.lastTs
  constructor
  · rw [entriesOf_append, entriesOf_append, hdelay, hjitter, derived_concat, h.jitters,
      hjitterVal]
    rfl
  · rw [entriesOf_append, entriesOf_append, hoffset, hdrift, derived_concat, h.drifts, hdriftVal]
    rfl
  · rw [entriesOf_append, hdelay, List.getLast?_concat]
    rfl
  · rw [entriesOf_append, hoffset, List.getLast?_concat]
    rfl
  · rw [entriesOf_append, hoffset, List.getLast?_concat]
    rfl

private theorem Compared.other {ws ws' : List TsAdd} {s s' : PollerState} {id : UInt32}
    (h : Compared id ws s)
    (hsame : ∀ metric, metric.compared = true →
      entriesOf (.ntp id metric) ws' = entriesOf (.ntp id metric) ws)
    (hmemory : s'.lastDelay = s.lastDelay ∧ s'.lastOffset = s.lastOffset ∧ s'.lastTs = s.lastTs) :
    Compared id ws' s' := by
  obtain ⟨hdelay, hoffset, hts⟩ := hmemory
  constructor
  · rw [hsame .jitter rfl, hsame .delay rfl, h.jitters]
  · rw [hsame .driftPpm rfl, hsame .offset rfl, h.drifts]
  · rw [hsame .delay rfl, hdelay, h.lastDelay]
  · rw [hsame .offset rfl, hoffset, h.lastOffset]
  · rw [hsame .offset rfl, hts, h.lastTs]

private theorem entriesOf_withResult {ws : List TsAdd} {m : Measured} {metric metric' : NtpMetric}
    (hmetric : metric.compared = false) (hmetric' : metric'.compared = true) (field : String)
    (result : Option F64) (todo : List PollerEffect) (fields : List (String × F64)) :
    entriesOf (.ntp src.id metric')
        (ws ++ (withResult cfg src m metric field result todo fields).unwritten) =
      entriesOf (.ntp src.id metric') (ws ++ (PollerTask.storing m todo fields).unwritten) := by
  have hne : metric ≠ metric' := fun h => by simp [h, hmetric'] at hmetric
  cases result with
  | none => rfl
  | some val =>
    simp [withResult, PollerTask.unwritten, ntpAdd, PollerEffect.write?, entriesOf_cons, hne]

private theorem PollerStep.compared {ws : List TsAdd} {s s' : PollerState} {a : PollerAction}
    {es : List PollerEvent} (hstep : PollerStep cfg src s a s' es) (hlast : SummaryLast s.task)
    (h : Compared src.id (ws ++ s.task.unwritten) s) :
    Compared src.id (ws ++ pollerWrites es ++ s'.task.unwritten) s' := by
  cases hstep with
  | unread
  | skipped =>
    rw [List.append_assoc]
    exact h
  | request c htask
  | lost htask
  | rejected _ _ htask =>
    rw [htask] at h
    rw [List.append_assoc]
    exact h.other (fun _ _ => rfl) ⟨rfl, rfl, rfl⟩
  | @sampled resp c t1 t4 sample htask =>
    rw [htask] at h
    have hbefore : Compared src.id ws s := by simpa [PollerTask.unwritten] using h
    rw [List.append_assoc]
    exact hbefore.record sample
  | tsAdd htask =>
    rw [htask] at h
    rw [List.append_assoc]
    exact h.other (fun _ _ => rfl) ⟨rfl, rfl, rfl⟩
  | hmSet htask =>
    rw [htask] at h hlast
    rw [hlast.nothing] at h
    rw [List.append_assoc]
    exact h.other (fun _ _ => rfl) ⟨rfl, rfl, rfl⟩
  | @systemNow c m rest fields htask =>
    rw [htask] at h
    have hrest : Compared src.id (ws ++ (PollerTask.storing m rest fields).unwritten) s := h
    refine hrest.other (fun metric hmetric => ?_) ⟨rfl, rfl, rfl⟩
    cases metric <;> first
      | contradiction
      | simp [pollerWrites, withSystem, PollerTask.unwritten, ntpAdd, PollerEffect.write?,
          entriesOf_cons]
  | @compare others m rest fields htask =>
    rw [htask] at h
    have hrest : Compared src.id (ws ++ (PollerTask.storing m rest fields).unwritten) s := h
    rw [List.append_assoc]
    exact hrest.other (fun _ hmetric => entriesOf_withResult rfl hmetric _ _ _ _) ⟨rfl, rfl, rfl⟩
  | @ping ms m rest fields htask =>
    rw [htask] at h
    have hrest : Compared src.id (ws ++ (PollerTask.storing m rest fields).unwritten) s := h
    rw [List.append_assoc]
    exact hrest.other (fun _ hmetric => entriesOf_withResult rfl hmetric _ _ _ _) ⟨rfl, rfl, rfl⟩

/-- In every run the jitters and drifts that a poller has written for its server, and has to write,
are those that follow from the delays and offsets it has written and has to write, one after the
other; polls that have failed in between leave no trace. -/
theorem comparisons_follow_exchanges {ts : List PollerTurn} {s : PollerState}
    (hrun : (poller cfg src).Run {} ts s) :
    Compared src.id (pollerWrites (events ts) ++ s.task.unwritten) s := by
  refine hrun.invariant
    (I := fun ts s => Compared src.id (pollerWrites (events ts) ++ s.task.unwritten) s)
    ⟨rfl, rfl, rfl, rfl, rfl⟩ ?_
  intro ts s a s' es hbefore ih hstep
  rw [events_append, events_singleton, pollerWrites_append]
  exact (PollerStep.of_step hstep).compared (run_summaryLast hbefore) ih

/-- Two polls and one that gets no answer in between. -/
def demoPolls : List PollerAction :=
  pollMoves 1700000000000000000 none ++
      [.publish, .request (taiOnly 1700000001000000000), .failed] ++
    pollMoves 1700000002000000000 none ++ [.publish]

theorem comparisons_follow_exchanges_demo :
    Compared pollSource.id
      (pollerWrites (events ((poller pollConfig pollSource).turnsOf {} demoPolls)) ++
        ((poller pollConfig pollSource).stateAfter {} demoPolls).task.unwritten)
      ((poller pollConfig pollSource).stateAfter {} demoPolls) ∧
    (entriesOf (.ntp 11 .driftPpm)
      (pollerWrites (events ((poller pollConfig pollSource).turnsOf {} demoPolls)))).length = 2 :=
  ⟨comparisons_follow_exchanges (Run.of_actions (by decide +kernel)), by decide +kernel⟩

end Poller

end Zeitpeer
