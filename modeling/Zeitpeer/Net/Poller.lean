import Zeitpeer.Framework.Machine
import Zeitpeer.Net.Ntp
import Zeitpeer.Phc.Reader
import Zeitpeer.Store.Redis

/-!
# The poller of one NTP server

A poll that succeeds is written out one call at a time. The comparison with the other servers
and the ping each add a write if they have a result, and the summary at the end holds whatever
was found. A poll that fails leaves no trace. Offsets, delays and stamps are exact where the
source casts them to `f64`.
-/

namespace Zeitpeer

open Framework

/-- A sample with what the poller derives from the one before it. -/
structure Measured where
  sample : NtpSample
  jitter : F64
  driftPpm : F64
  deriving DecidableEq, Repr

inductive PollerEffect where
  | tsAdd (w : TsAdd)
  | systemNow
  | compare
  | ping
  | hmSet
  deriving DecidableEq, Repr

inductive PollerTask where
  | waiting
  /-- The request is out. -/
  | exchanging (t1 : UInt64)
  | storing (m : Measured) (todo : List PollerEffect) (fields : List (String × F64))
  deriving DecidableEq, Repr

structure PollerState where
  lastDelay : Option F64 := none
  lastOffset : Option F64 := none
  lastTs : Option UInt64 := none
  task : PollerTask := .waiting
  deriving DecidableEq, Repr

inductive PollerAction where
  /-- The tick, with the clocks at the time of the request. -/
  | request (c : Clocks)
  /-- The server is not found, or the request or the response is lost. -/
  | failed
  | receive (resp : List UInt8) (c : Clocks)
  | publish
  | systemNow (c : Clocks)
  /-- The offsets that the summaries of the other servers hold. -/
  | compare (others : List F64)
  | ping (ms : Option F64)

inductive PollerEvent where
  | sent (packet : List UInt8)
  | sampled (m : Measured)
  | tsAdd (w : TsAdd)
  | hmSet (h : HmSet)
  deriving DecidableEq

/-- A poller's window is never empty; the product wraps as the node's does. -/
def pollerWindowNs (cfg : Config) : UInt64 := max cfg.sampling.windowSec 1 * 1000000000

def driftPpm (s : PollerState) (sample : NtpSample) : F64 :=
  match s.lastOffset, s.lastTs with
  | some prevOffset, some prevTs =>
    if prevTs < sample.timestampNs then
      ((sample.offsetNs : F64) - prevOffset) / (sample.timestampNs - prevTs).toNat * 1000000
    else 0
  | _, _ => 0

def measure (s : PollerState) (sample : NtpSample) : Measured :=
  { sample := sample
    jitter := (s.lastDelay.map fun prev => |(sample.delayNs : F64) - prev|).getD 0
    driftPpm := driftPpm s sample }

def ntpAdd (cfg : Config) (src : NtpSource) (m : Measured) (metric : NtpMetric) (val : F64) :
    PollerEffect :=
  .tsAdd { key := .ntp src.id metric, tsNs := m.sample.timestampNs, val := val,
           windowNs := pollerWindowNs cfg }

/-- Everything that follows a sample, in order. -/
def storeEffects (cfg : Config) (src : NtpSource) (m : Measured) : List PollerEffect :=
  [ntpAdd cfg src m .offset m.sample.offsetNs, ntpAdd cfg src m .delay m.sample.delayNs,
    ntpAdd cfg src m .jitter m.jitter, ntpAdd cfg src m .quality m.sample.stratum.toNat,
    ntpAdd cfg src m .driftPpm m.driftPpm, .systemNow, .compare, .ping, .hmSet]

def remoteSeconds (m : Measured) : F64 := m.sample.remoteTimeNs / 1000000000

/-- An unreadable system clock counts as zero. -/
def systemDelta (m : Measured) (c : Clocks) : F64 :=
  remoteSeconds m - ((systemNowNs c).map fun ns => (ns.toNat : F64) / 1000000000).getD 0

def summaryFields (src : NtpSource) (m : Measured) (c : Clocks) : List (String × F64) :=
  [("offset_ns", m.sample.offsetNs), ("delay_ns", m.sample.delayNs), ("jitter_ns", m.jitter),
    ("score", |(m.sample.delayNs : F64)| + m.jitter),
    ("weight", src.weight.getD NTP_DEFAULT_WEIGHT), ("stratum", m.sample.stratum.toNat),
    ("drift_ppm", m.driftPpm), ("remote_time_s", remoteSeconds m),
    ("system_delta_s", systemDelta m c)]

def offsetVsMean (m : Measured) (others : List F64) : Option F64 :=
  if others.isEmpty then none
  else some ((m.sample.offsetNs : F64) - others.sum / others.length)

def PollerState.sampled (cfg : Config) (src : NtpSource) (s : PollerState) (sample : NtpSample) :
    PollerState :=
  { lastDelay := some sample.delayNs
    lastOffset := some sample.offsetNs
    lastTs := some sample.timestampNs
    task := .storing (measure s sample) (storeEffects cfg src (measure s sample)) [] }

def withSystem (cfg : Config) (src : NtpSource) (m : Measured) (c : Clocks)
    (todo : List PollerEffect) (fields : List (String × F64)) : PollerTask :=
  .storing m
    (ntpAdd cfg src m .remoteTime (remoteSeconds m) ::
      ntpAdd cfg src m .systemDelta (systemDelta m c) :: todo)
    (fields ++ summaryFields src m c)

/-- A result is one more write and one more field. -/
def withResult (cfg : Config) (src : NtpSource) (m : Measured) (metric : NtpMetric)
    (field : String) (result : Option F64) (todo : List PollerEffect)
    (fields : List (String × F64)) : PollerTask :=
  match result with
  | none => .storing m todo fields
  | some val => .storing m (ntpAdd cfg src m metric val :: todo) (fields ++ [(field, val)])

def withMean (cfg : Config) (src : NtpSource) (m : Measured) (others : List F64)
    (todo : List PollerEffect) (fields : List (String × F64)) : PollerTask :=
  withResult cfg src m .offsetVsMean "offset_vs_mean_ns" (offsetVsMean m others) todo fields

def withPing (cfg : Config) (src : NtpSource) (m : Measured) (ms : Option F64)
    (todo : List PollerEffect) (fields : List (String × F64)) : PollerTask :=
  withResult cfg src m .pingMs "ping_ms" ms todo fields

def pollerStep (cfg : Config) (src : NtpSource) (s : PollerState) :
    PollerAction → Option (PollerState × List PollerEvent)
  | .request c =>
    match s.task with
    | .waiting =>
      match nowNs cfg.phcDevice c with
      | none => some (s, [])
      | some t1 => some ({ s with task := .exchanging t1 }, [.sent (ntpRequest t1)])
    | _ => none
  | .failed =>
    match s.task with
    | .waiting => some (s, [])
    | .exchanging _ => some ({ s with task := .waiting }, [])
    | .storing _ _ _ => none
  | .receive resp c =>
    match s.task with
    | .exchanging t1 =>
      if resp.length < NTP_PACKET_LEN then some ({ s with task := .waiting }, [])
      else
        match nowNs cfg.phcDevice c with
        | none => some ({ s with task := .waiting }, [])
        | some t4 =>
          match ntpSample t1 (resp.take NTP_PACKET_LEN) t4 with
          | none => some ({ s with task := .waiting }, [])
          | some sample => some (s.sampled cfg src sample, [.sampled (measure s sample)])
    | _ => none
  | .publish =>
    match s.task with
    | .storing m (.tsAdd w :: rest) fields =>
      some ({ s with task := .storing m rest fields }, [.tsAdd w])
    | .storing _ (.hmSet :: _) fields =>
      some ({ s with task := .waiting }, [.hmSet { key := .ntpSummary src.id, fields := fields }])
    | _ => none
  | .systemNow c =>
    match s.task with
    | .storing m (.systemNow :: rest) fields =>
      some ({ s with task := withSystem cfg src m c rest fields }, [])
    | _ => none
  | .compare others =>
    match s.task with
    | .storing m (.compare :: rest) fields =>
      some ({ s with task := withMean cfg src m others rest fields }, [])
    | _ => none
  | .ping ms =>
    match s.task with
    | .storing m (.ping :: rest) fields =>
      some ({ s with task := withPing cfg src m ms rest fields }, [])
    | _ => none

def poller (cfg : Config) (src : NtpSource) : Machine PollerState PollerAction PollerEvent :=
  ⟨pollerStep cfg src⟩

inductive PollerStep (cfg : Config) (src : NtpSource) :
    PollerState → PollerAction → PollerState → List PollerEvent → Prop where
  | unread {s : PollerState} (c : Clocks) (htask : s.task = .waiting)
      (hclock : nowNs cfg.phcDevice c = none) : PollerStep cfg src s (.request c) s []
  | request {s : PollerState} (c : Clocks) {t1 : UInt64} (htask : s.task = .waiting)
      (hclock : nowNs cfg.phcDevice c = some t1) :
      PollerStep cfg src s (.request c) { s with task := .exchanging t1 } [.sent (ntpRequest t1)]
  | skipped {s : PollerState} (htask : s.task = .waiting) : PollerStep cfg src s .failed s []
  | lost {s : PollerState} {t1 : UInt64} (htask : s.task = .exchanging t1) :
      PollerStep cfg src s .failed { s with task := .waiting } []
  | rejected {s : PollerState} (resp : List UInt8) (c : Clocks) {t1 : UInt64}
      (htask : s.task = .exchanging t1)
      (hbad : resp.length < NTP_PACKET_LEN ∨ nowNs cfg.phcDevice c = none ∨
        ∃ t4, nowNs cfg.phcDevice c = some t4 ∧
          ntpSample t1 (resp.take NTP_PACKET_LEN) t4 = none) :
      PollerStep cfg src s (.receive resp c) { s with task := .waiting } []
  | sampled {s : PollerState} (resp : List UInt8) (c : Clocks) {t1 t4 : UInt64}
      {sample : NtpSample} (htask : s.task = .exchanging t1) (hlen : NTP_PACKET_LEN ≤ resp.length)
      (hclock : nowNs cfg.phcDevice c = some t4)
      (hsample : ntpSample t1 (resp.take NTP_PACKET_LEN) t4 = some sample) :
      PollerStep cfg src s (.receive resp c) (s.sampled cfg src sample)
        [.sampled (measure s sample)]
  | tsAdd {s : PollerState} {m : Measured} {w : TsAdd} {rest : List PollerEffect}
      {fields : List (String × F64)} (htask : s.task = .storing m (.tsAdd w :: rest) fields) :
      PollerStep cfg src s .publish { s with task := .storing m rest fields } [.tsAdd w]
  | hmSet {s : PollerState} {m : Measured} {rest : List PollerEffect}
      {fields : List (String × F64)} (htask : s.task = .storing m (.hmSet :: rest) fields) :
      PollerStep cfg src s .publish { s with task := .waiting }
        [.hmSet { key := .ntpSummary src.id, fields := fields }]
  | systemNow {s : PollerState} (c : Clocks) {m : Measured} {rest : List PollerEffect}
      {fields : List (String × F64)} (htask : s.task = .storing m (.systemNow :: rest) fields) :
      PollerStep cfg src s (.systemNow c) { s with task := withSystem cfg src m c rest fields } []
  | compare {s : PollerState} (others : List F64) {m : Measured} {rest : List PollerEffect}
      {fields : List (String × F64)} (htask : s.task = .storing m (.compare :: rest) fields) :
      PollerStep cfg src s (.compare others)
        { s with task := withMean cfg src m others rest fields } []
  | ping {s : PollerState} (ms : Option F64) {m : Measured} {rest : List PollerEffect}
      {fields : List (String × F64)} (htask : s.task = .storing m (.ping :: rest) fields) :
      PollerStep cfg src s (.ping ms) { s with task := withPing cfg src m ms rest fields } []

variable {cfg : Config} {src : NtpSource}

private theorem PollerStep.of_receive {s s' : PollerState} {resp : List UInt8} {c : Clocks}
    {es : List PollerEvent} (hstep : pollerStep cfg src s (.receive resp c) = some (s', es)) :
    PollerStep cfg src s (.receive resp c) s' es := by
  simp only [pollerStep] at hstep
  split at hstep
  · rename_i htask
    split at hstep
    · rename_i hshort
      obtain ⟨rfl, rfl⟩ := Prod.mk.inj (Option.some.inj hstep)
      exact .rejected resp c htask (.inl hshort)
    · rename_i hlen
      split at hstep
      · rename_i hclock
        obtain ⟨rfl, rfl⟩ := Prod.mk.inj (Option.some.inj hstep)
        exact .rejected resp c htask (.inr (.inl hclock))
      · rename_i t4 hclock
        split at hstep
        all_goals
          rename_i hsample
          obtain ⟨rfl, rfl⟩ := Prod.mk.inj (Option.some.inj hstep)
        · exact .rejected resp c htask (.inr (.inr ⟨t4, hclock, hsample⟩))
        · exact .sampled resp c htask (Nat.le_of_not_lt hlen) hclock hsample
  · contradiction

theorem PollerStep.of_step {s s' : PollerState} {a : PollerAction} {es : List PollerEvent}
    (hstep : (poller cfg src).step s a = some (s', es)) : PollerStep cfg src s a s' es := by
  change pollerStep cfg src s a = some (s', es) at hstep
  cases a with
  | request c =>
    simp only [pollerStep] at hstep
    split at hstep
    · rename_i htask
      split at hstep
      all_goals
        rename_i hclock
        obtain ⟨rfl, rfl⟩ := Prod.mk.inj (Option.some.inj hstep)
      · exact .unread c htask hclock
      · exact .request c htask hclock
    · contradiction
  | failed =>
    simp only [pollerStep] at hstep
    split at hstep
    all_goals first
      | contradiction
      | rename_i htask
        obtain ⟨rfl, rfl⟩ := Prod.mk.inj (Option.some.inj hstep)
    · exact .skipped htask
    · exact .lost htask
  | receive resp c => exact .of_receive hstep
  | publish =>
    simp only [pollerStep] at hstep
    split at hstep
    all_goals first
      | contradiction
      | rename_i htask
        obtain ⟨rfl, rfl⟩ := Prod.mk.inj (Option.some.inj hstep)
    · exact .tsAdd htask
    · exact .hmSet htask
  | systemNow c
  | compare others
  | ping ms =>
    simp only [pollerStep] at hstep
    split at hstep
    all_goals first
      | contradiction
      | rename_i htask
        obtain ⟨rfl, rfl⟩ := Prod.mk.inj (Option.some.inj hstep)
        constructor
        exact htask

/-- The value that a write gives an offset series. -/
def TsAdd.offset? (w : TsAdd) : Option F64 :=
  match w.key with
  | .peer _ .offset => some w.val
  | .ntp _ .offset => some w.val
  | _ => none

/-- Every offset that is still to be stored satisfies a property. -/
def OffsetsStored (P : F64 → Prop) : PollerTask → Prop
  | .storing _ todo _ => ∀ w x, .tsAdd w ∈ todo → w.offset? = some x → P x
  | _ => True

/-- The only offset that a poller writes is the one it has sampled. -/
theorem PollerStep.offsets {P : F64 → Prop} {s s' : PollerState} {a : PollerAction}
    {es : List PollerEvent} (hstep : PollerStep cfg src s a s' es) (h : OffsetsStored P s.task)
    (hsample : ∀ m, .sampled m ∈ es → P m.sample.offsetNs) :
    OffsetsStored P s'.task ∧ ∀ w x, .tsAdd w ∈ es → w.offset? = some x → P x := by
  have hresult : ∀ {m metric field result todo fields}, metric ≠ .offset →
      (∀ w x, .tsAdd w ∈ todo → w.offset? = some x → P x) →
      OffsetsStored P (withResult cfg src m metric field result todo fields) := by
    intro m metric field result todo fields hmetric htodo
    cases result with
    | none => exact htodo
    | some val =>
      intro w x hw hx
      rcases List.mem_cons.mp hw with hw | hw
      · obtain rfl := PollerEffect.tsAdd.inj hw
        cases metric <;> contradiction
      · exact htodo w x hw hx
  cases hstep with
  | unread
  | skipped => exact ⟨h, by simp⟩
  | request
  | lost
  | rejected => exact ⟨trivial, by simp⟩
  | sampled =>
    refine ⟨?_, by simp⟩
    intro w x hw hx
    simp only [storeEffects, ntpAdd, List.mem_cons, PollerEffect.tsAdd.injEq, List.not_mem_nil,
      or_false, reduceCtorEq] at hw
    rcases hw with rfl | rfl | rfl | rfl | rfl
    · obtain rfl := Option.some.inj hx
      exact hsample _ (List.mem_singleton_self _)
    all_goals cases hx
  | tsAdd htask =>
    rw [htask] at h
    refine ⟨fun w x hw => h w x (List.mem_cons_of_mem _ hw), ?_⟩
    intro w x hw hx
    obtain rfl := PollerEvent.tsAdd.inj (List.mem_singleton.mp hw)
    exact h w x List.mem_cons_self hx
  | hmSet htask => exact ⟨trivial, by simp⟩
  | systemNow c htask =>
    rw [htask] at h
    refine ⟨?_, by simp⟩
    intro w x hw hx
    simp only [ntpAdd, List.mem_cons, PollerEffect.tsAdd.injEq] at hw
    rcases hw with rfl | rfl | hw
    · cases hx
    · cases hx
    · exact h w x (List.mem_cons_of_mem _ hw) hx
  | compare others htask =>
    rw [htask] at h
    exact ⟨hresult (by simp) fun w x hw => h w x (List.mem_cons_of_mem _ hw), by simp⟩
  | ping ms htask =>
    rw [htask] at h
    exact ⟨hresult (by simp) fun w x hw => h w x (List.mem_cons_of_mem _ hw), by simp⟩

end Zeitpeer
