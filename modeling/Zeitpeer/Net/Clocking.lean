import Zeitpeer.Framework.Ghost
import Zeitpeer.Net.Outcomes
import Zeitpeer.Net.Poller
import Zeitpeer.Phc.Reader

/-!
# Which clocks an exchange is timed with

Every reading chooses its clock anew from what answers at that moment. A history variable
remembers the readings behind the times of an exchange until they are used, and two of them
are from one clock exactly if the same of the preferred clocks answered both times.
-/

namespace Zeitpeer

open Framework Machine

variable {parse : String → UInt16 → Option SocketAddr} {cfg : Config} {device : Option String}

/-- What the clocks answer at one reading, with the system time that the handlers fall back
to. -/
structure Reading where
  clocks : Clocks
  system : UInt64

namespace Reading

/-- `now_ns`, or else the system time. -/
def stamp (device : Option String) (r : Reading) : UInt64 := (nowNs device r.clocks).getD r.system

def clock (device : Option String) (r : Reading) : ClockId := stampClock device r.clocks

/-- The answers are what the clocks show at some time between two instants. -/
structure During (shown : ClockId → Nat → UInt64) (i j : Nat) (r : Reading) : Prop where
  clocks : ∀ k ns, r.clocks.gettime k = some ns → ∃ x, i ≤ x ∧ x ≤ j ∧ shown k x = ns
  system : ∃ x, i ≤ x ∧ x ≤ j ∧ shown .realtime x = r.system

private theorem During.stamp (device : Option String) {shown : ClockId → Nat → UInt64} {i j : Nat}
    {r : Reading} (h : r.During shown i j) :
    ∃ x, i ≤ x ∧ x ≤ j ∧ shown (r.clock device) x = r.stamp device := by
  rw [Reading.stamp, Reading.clock, stampClock, nowNs_eq]
  cases hclock : nowClock device r.clocks with
  | none => exact h.system
  | some k =>
    obtain ⟨ns, hns⟩ := nowClock_answers hclock
    simpa [hns] using h.clocks k ns hns

end Reading

/-- The same of the preferred clocks answered at two readings. -/
def SameAnswers (device : Option String) (c c' : Clocks) : Prop :=
  c.phcAnswers device = c'.phcAnswers device ∧ c.taiAnswers device = c'.taiAnswers device

/-- The readings behind the times that a node has in hand, those of its outstanding requests
included. -/
structure ReadLog where
  probe : Reading
  pending : UInt32 → Reading
  t2 : Reading
  t3 : Reading
  t4 : Reading

def fitsReading (cfg : Config) : Action → Reading → Bool
  | .txDraw t1, r => t1 = nowNs cfg.phcDevice r.clocks
  | .rxReadT2 phc sys, r
  | .rxReadT3 phc sys, r
  | .rxReadT4 phc sys, r => phc = nowNs cfg.phcDevice r.clocks ∧ sys = r.system
  | _, _ => true

def recordReading (t : NodeTurn) (r : Reading) (g : ReadLog) : ReadLog :=
  match t.action with
  | .txDraw _ => { g with probe := r }
  | .txInsert =>
    match t.before.tx with
    | .sent probe _ => { g with pending := Function.update g.pending probe.seq g.probe }
    | _ => g
  | .rxReadT2 _ _ => { g with t2 := r }
  | .rxReadT3 _ _ => { g with t3 := r }
  | .rxReadT4 _ _ => { g with t4 := r }
  | _ => g

/-- The node with the readings behind its times. -/
def clockedNode (parse : String → UInt16 → Option SocketAddr) (cfg : Config) :
    Machine (NodeState × ReadLog) (Action × Reading) Event :=
  (node parse cfg).annotate ⟨fitsReading cfg, recordReading⟩

abbrev ClockedTurn := Turn (NodeState × ReadLog) (Action × Reading) Event

private theorem exists_clocks (device : Option String) (phc : Option UInt64) :
    ∃ c, nowNs device c = phc := by
  refine ⟨{ opens := false, gettime := fun _ => phc }, ?_⟩
  cases device <;> cases phc <;> rfl

private theorem exists_reading (cfg : Config) (a : Action) : ∃ r, fitsReading cfg a r = true := by
  have hread : ∀ phc sys, ∃ r : Reading, phc = nowNs cfg.phcDevice r.clocks ∧ sys = r.system := by
    intro phc sys
    obtain ⟨c, hc⟩ := exists_clocks cfg.phcDevice phc
    exact ⟨⟨c, sys⟩, hc.symm, rfl⟩
  cases a with
  | txDraw t1 =>
    obtain ⟨r, hr, _⟩ := hread t1 0
    exact ⟨r, decide_eq_true hr⟩
  | rxReadT2 phc sys
  | rxReadT3 phc sys
  | rxReadT4 phc sys =>
    obtain ⟨r, hr⟩ := hread phc sys
    exact ⟨r, decide_eq_true hr⟩
  | _ => exact ⟨⟨.unreadable, 0⟩, rfl⟩

/-- The runs of the node are the runs of the clocked node without the readings. -/
theorem node_run_iff {ts : List NodeTurn} {s : NodeState} (g : ReadLog) :
    (node parse cfg).Run {} ts s ↔
      ∃ us g', (clockedNode parse cfg).Run ({}, g) us (s, g') ∧ us.map plain = ts := by
  constructor
  · intro hrun
    exact hrun.explained (exists_reading cfg) g
  · rintro ⟨us, g', hrun, rfl⟩
    exact hrun.plain

def RxLogged (device : Option String) (g : ReadLog) : RxTask → Prop
  | .requestStamped _ _ t2 => t2 = g.t2.stamp device
  | .replying _ resp => resp.t2RecvNs = g.t2.stamp device ∧ resp.t3SendNs = g.t3.stamp device
  | .responseStamped _ _ t4 => t4 = g.t4.stamp device
  | _ => True

/-- Every time in the node's state is the stamp of the reading in the log. -/
structure Logged (device : Option String) (s : NodeState) (g : ReadLog) : Prop where
  tx : ∀ probe, s.tx.probe? = some probe → nowNs device g.probe.clocks = some probe.t1
  pending : ∀ seq req, s.pending.lookup seq = some req →
    ∃ t1 : UInt64, nowNs device (g.pending seq).clocks = some t1 ∧ req.t1Ns = t1.toNat
  rx : RxLogged device g s.rx

private theorem Logged.insert {device : Option String} {s s' : NodeState} {g : ReadLog}
    {r : Reading} {probe : Probe} {todo : List Target} {es : List Event}
    (htx : s.tx = .sent probe todo) (h : Logged device s g) :
    Logged device
      { s with pending := s.pending.insert probe.seq (probe.pending s.now), tx := .probing todo }
      (recordReading ⟨s, .txInsert, es, s'⟩ r g) := by
  have hlog : recordReading ⟨s, .txInsert, es, s'⟩ r g =
      { g with pending := Function.update g.pending probe.seq g.probe } := by
    simp only [recordReading, htx]
  have ht1 := h.tx probe (by rw [htx]; rfl)
  rw [hlog]
  refine ⟨by simp [TxTask.probe?], ?_, h.rx⟩
  intro seq req hlook
  by_cases hseq : seq = probe.seq
  · subst hseq
    rw [AList.lookup_insert] at hlook
    obtain rfl := Option.some.inj hlook
    simp only [Function.update_self]
    exact ⟨probe.t1, ht1, rfl⟩
  · rw [AList.lookup_insert_ne hseq] at hlook
    simp only [Function.update_of_ne hseq]
    exact h.pending seq req hlook

private theorem NodeStep.logged {s s' : NodeState} {g : ReadLog} {a : Action} {r : Reading}
    {es : List Event} (hstep : NodeStep parse cfg s a s' es) (hfits : fitsReading cfg a r = true)
    (h : Logged cfg.phcDevice s g) :
    Logged cfg.phcDevice s' (recordReading ⟨s, a, es, s'⟩ r g) := by
  cases hstep with
  | advance
  | recvDrop => exact ⟨h.tx, h.pending, h.rx⟩
  | tickIdle
  | tick
  | drawFailed
  | sendFailed
  | cleanup => exact ⟨by simp [TxTask.probe?], h.pending, h.rx⟩
  | @drew target todo t1 htx =>
    refine ⟨?_, h.pending, h.rx⟩
    intro probe hprobe
    obtain rfl := Option.some.inj hprobe
    exact (of_decide_eq_true hfits).symm
  | @sent probe todo htx =>
    refine ⟨?_, h.pending, h.rx⟩
    intro probe' hprobe
    apply h.tx
    rw [htx]
    exact hprobe
  | insert htx
  | overwrite htx => exact h.insert htx
  | @sweep now expired =>
    refine ⟨?_, fun seq req hlook => h.pending seq req (Table.lookup_of_retain hlook), h.rx⟩
    intro probe hprobe
    cases expired <;> simp [TxTask.probe?] at hprobe
  | @expire t rest =>
    refine ⟨?_, h.pending, h.rx⟩
    intro probe hprobe
    cases rest <;> simp [TxTask.probe?] at hprobe
  | recvRequest
  | recvResponse
  | replyFailed
  | reply
  | latency
  | orphan
  | runtime => exact ⟨h.tx, h.pending, trivial⟩
  | @store e w rest =>
    refine ⟨h.tx, h.pending, ?_⟩
    cases rest <;> trivial
  | readT2 phc sys hrx
  | readT4 phc sys hrx =>
    obtain ⟨rfl, rfl⟩ := of_decide_eq_true hfits
    exact ⟨h.tx, h.pending, rfl⟩
  | readT3 phc sys hrx =>
    obtain ⟨rfl, rfl⟩ := of_decide_eq_true hfits
    have ht2 := h.rx
    rw [hrx] at ht2
    exact ⟨h.tx, h.pending, ht2, rfl⟩
  | mismatch hrx hsome hid
  | «match» hrx hsome hid =>
    exact ⟨h.tx, fun seq req hlook => h.pending seq req (Table.lookup_of_erase hlook), trivial⟩

theorem run_logged {g : ReadLog} {ts : List ClockedTurn} {s : NodeState × ReadLog}
    (hrun : (clockedNode parse cfg).Run ({}, g) ts s) :
    Logged cfg.phcDevice s.1 s.2 := by
  induction hrun with
  | start =>
    refine ⟨by simp [TxTask.probe?], ?_, trivial⟩
    intro seq req hlook
    contradiction
  | turn _ hstep ih =>
    obtain ⟨hfits, hplain, hlog⟩ := annotate_step.mp hstep
    rw [hlog]
    exact (NodeStep.of_step hplain).logged hfits ih

/-! ## The pollers -/

def recordRequest (t : Turn PollerState PollerAction PollerEvent) (_ : Unit) (g : Clocks) :
    Clocks :=
  match t.action with
  | .request c => c
  | _ => g

/-- A poller with the clocks of its last request. -/
def clockedPoller (cfg : Config) (src : NtpSource) :
    Machine (PollerState × Clocks) (PollerAction × Unit) PollerEvent :=
  (poller cfg src).annotate ⟨fun _ _ => true, recordRequest⟩

abbrev ClockedPollerTurn := Turn (PollerState × Clocks) (PollerAction × Unit) PollerEvent

/-- A request in flight carries what its clocks gave. -/
def RequestLogged (device : Option String) (s : PollerState × Clocks) : Prop :=
  ∀ t1, s.1.task = .exchanging t1 → nowNs device s.2 = some t1

theorem run_requestLogged {src : NtpSource} {g : Clocks} {ts : List ClockedPollerTurn}
    {s : PollerState × Clocks} (hrun : (clockedPoller cfg src).Run ({}, g) ts s) :
    RequestLogged cfg.phcDevice s := by
  induction hrun with
  | start =>
    intro t1 htask
    contradiction
  | @turn ts s s' a es _ hstep ih =>
    obtain ⟨s', g'⟩ := s'
    obtain ⟨a, _⟩ := a
    obtain ⟨_, hplain, hlog⟩ := annotate_step.mp hstep
    intro t1 htask'
    change nowNs cfg.phcDevice g' = some t1
    rw [show g' = _ from hlog]
    cases PollerStep.of_step hplain with
    | unread c htask =>
      rw [htask] at htask'
      contradiction
    | skipped htask =>
      rw [htask] at htask'
      contradiction
    | request c htask hclock =>
      obtain rfl := PollerTask.exchanging.inj htask'
      exact hclock
    | compare others =>
      simp only [withMean, withResult] at htask'
      split at htask' <;> contradiction
    | ping ms =>
      simp only [withPing, withResult] at htask'
      split at htask' <;> contradiction
    | _ => contradiction

/-- The time that stands for the request in a reply: the poller's own where the originate field
is empty, or the copy of it that came back. -/
def CarriesRequest (t1 : UInt64) (resp : List UInt8) : Prop :=
  timestampAt resp 24 = some 0 ∨ (resp.drop 24).take 8 = encodeNtpTimestamp t1

/-- A turn in which `handle_response` goes on to compute. -/
def ExchangeTimed (cfg : Config) (t : ClockedTurn) : Prop :=
  ∀ e, t.action.1 = .rxTake → t.after.1.rx = .matched e →
    ∃ c1 r4, c1 = (t.before.2.pending e.resp.header.seq).clocks ∧ r4 = t.before.2.t4 ∧
      (∃ t1 : UInt64, nowNs cfg.phcDevice c1 = some t1 ∧ e.req.t1Ns = t1.toNat) ∧
      e.t4 = r4.stamp cfg.phcDevice ∧
      (nowClock cfg.phcDevice c1 = some (r4.clock cfg.phcDevice) ↔
        SameAnswers cfg.phcDevice c1 r4.clocks)

/-- A turn in which `handle_request` sends its response. -/
def ReplyTimed (cfg : Config) (t : ClockedTurn) : Prop :=
  ∀ dst payload, .replied dst payload ∈ t.emitted →
    ∃ resp : TimeResponse, ∃ r2 r3, payload = resp.serialize ∧ r2 = t.before.2.t2 ∧
      r3 = t.before.2.t3 ∧ resp.t2RecvNs = r2.stamp cfg.phcDevice ∧
      resp.t3SendNs = r3.stamp cfg.phcDevice ∧
      (r2.clock cfg.phcDevice = r3.clock cfg.phcDevice ↔
        SameAnswers cfg.phcDevice r2.clocks r3.clocks) ∧
      (r2.clock cfg.phcDevice = r3.clock cfg.phcDevice → ∀ shown i j k l, j ≤ k →
        r2.During shown i j → r3.During shown k l →
        (∀ x y, x ≤ y → shown (r2.clock cfg.phcDevice) x ≤ shown (r2.clock cfg.phcDevice) y) →
        resp.t2RecvNs ≤ resp.t3SendNs)

/-- A turn in which a poll computes a sample. -/
def PollTimed (cfg : Config) (t : ClockedPollerTurn) : Prop :=
  ∀ m, .sampled m ∈ t.emitted → ∃ resp c4 t1, t.action.1 = .receive resp c4 ∧
    ntpSample t1 (resp.take NTP_PACKET_LEN) m.sample.timestampNs = some m.sample ∧
    nowNs cfg.phcDevice t.before.2 = some t1 ∧
    nowNs cfg.phcDevice c4 = some m.sample.timestampNs ∧
    (CarriesRequest t1 resp ∧ nowClock cfg.phcDevice t.before.2 = nowClock cfg.phcDevice c4 ↔
      CarriesRequest t1 resp ∧ SameAnswers cfg.phcDevice t.before.2 c4)

private theorem nowClock_of_nowNs {c : Clocks} {ns : UInt64} (h : nowNs device c = some ns) :
    nowClock device c = some (stampClock device c) := by
  rw [stampClock]
  rw [nowNs_eq] at h
  cases hclock : nowClock device c with
  | none =>
    rw [hclock] at h
    contradiction
  | some k => rfl

private theorem NodeStep.take {s s' : NodeState} {es : List Event} {e : Exchange}
    (hstep : NodeStep parse cfg s .rxTake s' es) (hmatched : s'.rx = .matched e) :
    s.rx = .responseStamped e.src e.resp e.t4 ∧
      s.pending.lookup e.resp.header.seq = some e.req := by
  cases hstep with
  | orphan
  | mismatch => contradiction
  | «match» hrx hsome hid =>
    obtain rfl := RxTask.matched.inj hmatched
    exact ⟨hrx, hsome⟩

private theorem NodeStep.replied {s s' : NodeState} {a : Action} {es : List Event}
    {dst : SocketAddr} {payload : List UInt8} (hstep : NodeStep parse cfg s a s' es)
    (hsent : .replied dst payload ∈ es) :
    ∃ resp : TimeResponse, s.rx = .replying dst resp ∧ payload = resp.serialize := by
  cases hstep with
  | @reply dst' resp hrx =>
    obtain ⟨rfl, rfl⟩ := Event.replied.inj (List.mem_singleton.mp hsent)
    exact ⟨resp, hrx, rfl⟩
  | _ => simp at hsent

private theorem exchangeTimed {s s' : NodeState × ReadLog} {a : Action × Reading} {es : List Event}
    (hstep : (clockedNode parse cfg).step s a = some (s', es))
    (h : Logged cfg.phcDevice s.1 s.2) : ExchangeTimed cfg ⟨s, a, es, s'⟩ := by
  obtain ⟨a, r⟩ := a
  obtain ⟨_, hplain, _⟩ := annotate_step.mp hstep
  rintro e rfl hmatched
  obtain ⟨hrx, hlook⟩ := (NodeStep.of_step hplain).take hmatched
  obtain ⟨t1, ht1, hreq⟩ := h.pending _ _ hlook
  have ht4 := h.rx
  rw [hrx] at ht4
  refine ⟨_, _, rfl, rfl, ⟨t1, ht1, hreq⟩, ht4, ?_⟩
  rw [nowClock_of_nowNs ht1, Option.some_inj]
  exact stampClock_eq_iff

private theorem replyTimed {s s' : NodeState × ReadLog} {a : Action × Reading} {es : List Event}
    (hstep : (clockedNode parse cfg).step s a = some (s', es))
    (h : Logged cfg.phcDevice s.1 s.2) : ReplyTimed cfg ⟨s, a, es, s'⟩ := by
  obtain ⟨_, hplain, _⟩ := annotate_step.mp hstep
  intro dst payload hsent
  obtain ⟨resp, hrx, rfl⟩ := (NodeStep.of_step hplain).replied hsent
  have hstamps := h.rx
  rw [hrx] at hstamps
  obtain ⟨ht2, ht3⟩ := hstamps
  refine ⟨resp, _, _, rfl, rfl, rfl, ht2, ht3, stampClock_eq_iff, ?_⟩
  intro hclock shown i j k l hjk hfirst hsecond hmono
  obtain ⟨x, _, hxj, hx⟩ := hfirst.stamp cfg.phcDevice
  obtain ⟨y, hky, _, hy⟩ := hsecond.stamp cfg.phcDevice
  rw [ht2, ht3, ← hx, ← hy, ← hclock]
  exact hmono x y (by omega)

private theorem pollTimed {src : NtpSource} {s s' : PollerState × Clocks} {a : PollerAction × Unit}
    {es : List PollerEvent} (hstep : (clockedPoller cfg src).step s a = some (s', es))
    (h : RequestLogged cfg.phcDevice s) : PollTimed cfg ⟨s, a, es, s'⟩ := by
  obtain ⟨a, _⟩ := a
  obtain ⟨s', g'⟩ := s'
  obtain ⟨_, hplain, _⟩ := annotate_step.mp hstep
  intro m hm
  cases PollerStep.of_step hplain with
  | @sampled resp c4 t1 t4 sample htask hlen hclock hsample =>
    obtain rfl := PollerEvent.sampled.inj (List.mem_singleton.mp hm)
    have ht4 : (measure s.1 sample).sample.timestampNs = t4 := ntpSample_timestamp hsample
    have ht1 := h t1 htask
    rw [← ht4] at hclock hsample
    refine ⟨resp, c4, t1, rfl, hsample, ht1, hclock, ?_⟩
    rw [nowClock_of_nowNs ht1, nowClock_of_nowNs hclock, Option.some_inj, stampClock_eq_iff]
    exact Iff.rfl
  | _ => simp at hm

/-- Two times of an exchange, a reply or a poll are from one clock exactly if the same of the
preferred clocks answered at both readings, whatever fails or recovers in between; and a reply's
two times are in order if that clock does not go back. -/
theorem one_clock_iff (parse : String → UInt16 → Option SocketAddr) (cfg : Config) :
    (∀ g ts s, (clockedNode parse cfg).Run ({}, g) ts s →
      ∀ t ∈ ts, ExchangeTimed cfg t ∧ ReplyTimed cfg t) ∧
      ∀ src g ts s, (clockedPoller cfg src).Run ({}, g) ts s → ∀ t ∈ ts, PollTimed cfg t := by
  constructor
  · intro g ts s hrun t ht
    obtain ⟨before, rest, rfl⟩ := List.append_of_mem ht
    obtain ⟨hbefore, hstep, _⟩ := hrun.middle
    have hlogged := run_logged hbefore
    exact ⟨exchangeTimed hstep hlogged, replyTimed hstep hlogged⟩
  · intro src g ts s hrun t ht
    obtain ⟨before, rest, rfl⟩ := List.append_of_mem ht
    obtain ⟨hbefore, hstep, _⟩ := hrun.middle
    exact pollTimed hstep (run_requestLogged hbefore)

/-- The kernel's clocks, TAI ahead of UTC by the leap seconds, and a hardware clock in UTC. -/
def leapClocks (opens : Bool) (utc : UInt64) : Reading :=
  { clocks :=
      { opens := opens
        gettime := fun
          | .realtime => some utc
          | .tai => some (utc + 37000000000)
          | .phc => some utc }
    system := utc }

/-- A probe is timed while the device is missing, and its response when it is there. -/
def lateActions : List (Action × Reading) :=
  let early := leapClocks false 1000000000000
  let late := leapClocks true 1000000002000
  let resp := demoResponse 2 1037000000000 1000000001000 1000000001000
  [(.txTick, early), (.txDraw (some 1037000000000), early), (.txSend true, early),
    (.txInsert, early), (.rxRecv ⟨[10, 0, 0, 2], 32002⟩ resp.serialize, late),
    (.rxReadT4 (some 1000000002000) 1000000002000, late), (.rxTake, late)]

def emptyLog : ReadLog :=
  let none := leapClocks false 0
  { probe := none, pending := fun _ => none, t2 := none, t3 := none, t4 := none }

def lateTurns : List ClockedTurn :=
  (clockedNode demoParse demoConfig).turnsOf ({}, emptyLog) lateActions

/-- The difference of the two clocks enters the offset of two clocks that agree. -/
theorem exchange_two_clocks :
    (∃ s, (clockedNode demoParse demoConfig).Run ({}, emptyLog) lateTurns s) ∧
      ∃ t ∈ lateTurns, ∃ e, t.action.1 = .rxTake ∧ t.after.1.rx = .matched e ∧
        nowClock demoConfig.phcDevice (t.before.2.pending e.resp.header.seq).clocks = some .tai ∧
        t.before.2.t4.clock demoConfig.phcDevice = .phc ∧ e.calc.offsetNs = -18500000000 := by
  have hexec : ((clockedNode demoParse demoConfig).exec ({}, emptyLog) lateActions).isSome =
      true := by
    rfl
  refine ⟨⟨_, Run.of_actions hexec⟩, _, List.mem_of_getElem? (i := 6) rfl, _, rfl, rfl, ?_, ?_, ?_⟩
  · rfl
  · rfl
  · rfl

end Zeitpeer
