import Zeitpeer.Framework.Machine
import Zeitpeer.Net.Ntp
import Zeitpeer.Phc.Reader
import Zeitpeer.Store.Redis
import Zeitpeer.Time.Fuse
import Zeitpeer.Time.Slew

/-!
# The fusion loop

One iteration reads the offsets of every source and, where there are enough, its delays and
jitters; it then fuses the samples, and publishes. Every store call and clock reading is a step
of its own, so the writers can run between any two of them, and its reply is a choice of the
environment.
-/

namespace Zeitpeer

open Framework

/-- A peer or NTP server with the series that its readings are under. -/
structure Source where
  id : UInt32
  weight : F64
  offsetKey : SeriesKey
  delayKey : SeriesKey
  jitterKey : SeriesKey
  deriving DecidableEq, Repr

def PeerEntry.source (p : PeerEntry) : Source :=
  { id := p.id
    weight := p.weight.getD 1
    offsetKey := .peer p.id .offset
    delayKey := .peer p.id .delay
    jitterKey := .peer p.id .jitter }

def NtpSource.source (n : NtpSource) : Source :=
  { id := n.id
    weight := n.weight.getD NTP_DEFAULT_WEIGHT
    offsetKey := .ntp n.id .offset
    delayKey := .ntp n.id .delay
    jitterKey := .ntp n.id .jitter }

/-- The order in which an iteration reads: the other peers, then the NTP servers. -/
def sources (cfg : Config) : List Source :=
  (cfg.peers.filter fun p => p.id ≠ cfg.nodeId).map PeerEntry.source ++
    cfg.ntpSources.map NtpSource.source

/-- The least number of offset readings, and the most that are read. -/
def readLimit (cfg : Config) : Nat := max cfg.filter.minSamplesPerPeer.toNat 1

theorem readLimit_pos (cfg : Config) : 0 < readLimit cfg := Nat.le_max_right _ _

def controls (cfg : Config) : Bool := cfg.mode.controlEnable && !cfg.mode.observerOnly

inductive Effect where
  | tsAdd (w : TsAdd)
  | slew (offsetNs driftPpm : F64)
  /-- `phc_system_offset`, with what its two writes need. -/
  | phcOffset (ts : UInt64) (smoothed : F64)
  | hmSet (h : HmSet)
  deriving DecidableEq, Repr

abbrev Ring := List (UInt64 × Int)

/-- The ring keeps the last 512 fused offsets. -/
def pushRing (ring : Ring) (x : UInt64 × Int) : Ring :=
  (ring ++ [x]).drop ((ring ++ [x]).length - 512)

def fusedAdd (cfg : Config) (metric : FusedMetric) (ts : UInt64) (val : F64) : Effect :=
  .tsAdd { key := .fused metric, tsNs := ts, val := val, windowNs := cfg.windowNs }

def summaryKey (cfg : Config) (id : UInt32) : HashKey :=
  if cfg.peers.any fun p => p.id = id then .peerSummary id
  else if cfg.ntpSources.any fun n => n.id = id then .ntpSummary id
  else .peerSummary id

def sampleSummary (cfg : Config) (s : PeerSample) : Effect :=
  .hmSet
    { key := summaryKey cfg s.peerId
      fields := [("offset_ns", s.offsetMedianNs), ("delay_ns", s.delayMedianNs),
        ("jitter_ns", s.jitterMedianNs), ("score", peerScore s)] }

def fusedSummary (f : Fused) : Effect :=
  .hmSet
    { key := .fusedSummary
      fields := [("smoothed_offset_ns", f.smoothed), ("raw_offset_ns", f.stats.meanOffsetNs),
        ("mean_delay_ns", f.stats.meanDelayNs), ("weight_sum", f.stats.totalWeight)] }

/-- The writes and, in control mode, the clock command that the ring allows. -/
def driftEffects (cfg : Config) (ts : UInt64) (smoothed : F64) (ring : Ring) : List Effect :=
  if 3 ≤ ring.length then
    fusedAdd cfg .driftPpm ts (linregSlopePpm ring) ::
      (if controls cfg then [.slew smoothed (linregSlopePpm ring)] else [])
  else []

/-- The fused offset and what is derived from it. -/
def fusedEffects (cfg : Config) (ts : UInt64) (f : Fused) (ring : Ring) : List Effect :=
  [fusedAdd cfg .offset ts f.stats.meanOffsetNs, fusedAdd cfg .delay ts f.stats.meanDelayNs,
    fusedAdd cfg .ewma ts f.smoothed] ++ driftEffects cfg ts f.smoothed ring

/-- The hardware clock and the summaries; an error of the former skips the latter. -/
def reportEffects (cfg : Config) (ts : UInt64) (f : Fused) (samples : List PeerSample) :
    List Effect :=
  .phcOffset ts f.smoothed :: (samples.map (sampleSummary cfg) ++ [fusedSummary f] ++
    (if cfg.peers.any fun p => p.id = cfg.nodeId then
      [.hmSet { key := .peerSelf cfg.nodeId, fields := [("last_ewma_ns", f.smoothed)] }]
    else []))

/-- Everything that follows a fused offset, in order. -/
def publishEffects (cfg : Config) (ts : UInt64) (f : Fused) (ring : Ring)
    (samples : List PeerSample) : List Effect :=
  fusedEffects cfg ts f ring ++ reportEffects cfg ts f samples

/-- What an iteration publishes: fused values, at most the command that the ring allows, the
hardware clock and summaries. -/
theorem mem_publishEffects {cfg : Config} {ts : UInt64} {f : Fused} {ring : Ring}
    {samples : List PeerSample} {e : Effect} (he : e ∈ publishEffects cfg ts f ring samples) :
    (∃ metric val, e = fusedAdd cfg metric ts val) ∨
      (controls cfg = true ∧ e = .slew f.smoothed (linregSlopePpm ring)) ∨
      e = .phcOffset ts f.smoothed ∨ ∃ h, e = .hmSet h := by
  have hdrift : e ∈ driftEffects cfg ts f.smoothed ring →
      e = fusedAdd cfg .driftPpm ts (linregSlopePpm ring) ∨
        (controls cfg = true ∧ e = .slew f.smoothed (linregSlopePpm ring)) := by
    intro h
    unfold driftEffects at h
    split at h
    · rcases List.mem_cons.mp h with h | h
      · exact .inl h
      · split at h
        · rename_i hcontrols
          exact .inr ⟨hcontrols, List.mem_singleton.mp h⟩
        · exact absurd h List.not_mem_nil
    · exact absurd h List.not_mem_nil
  simp only [publishEffects, fusedEffects, reportEffects, List.mem_append, List.mem_cons,
    List.not_mem_nil, or_false, List.mem_map] at he
  rcases he with ((he | he | he) | he) | he | (⟨s, _, he⟩ | he) | he
  · exact .inl ⟨_, _, he⟩
  · exact .inl ⟨_, _, he⟩
  · exact .inl ⟨_, _, he⟩
  · rcases hdrift he with he | he
    · exact .inl ⟨_, _, he⟩
    · exact .inr (.inl he)
  · exact .inr (.inr (.inl he))
  · exact .inr (.inr (.inr ⟨_, he.symm⟩))
  · exact .inr (.inr (.inr ⟨_, he⟩))
  · split at he
    · exact .inr (.inr (.inr ⟨_, List.mem_singleton.mp he⟩))
    · exact absurd he List.not_mem_nil

/-- The summaries of an iteration: one for each sample, that of the fused values, and its own. -/
theorem mem_publishEffects_hmSet {cfg : Config} {ts : UInt64} {f : Fused} {ring : Ring}
    {samples : List PeerSample} {h : HmSet}
    (hmem : .hmSet h ∈ publishEffects cfg ts f ring samples) :
    (∃ s ∈ samples, sampleSummary cfg s = .hmSet h) ∨ h.key = .fusedSummary ∨
      h.key = .peerSelf cfg.nodeId := by
  have hdrift : .hmSet h ∉ driftEffects cfg ts f.smoothed ring := by
    unfold driftEffects
    split
    · split <;> simp [fusedAdd]
    · simp
  simp only [publishEffects, fusedEffects, reportEffects, fusedAdd, List.mem_append,
    List.mem_cons, List.not_mem_nil, or_false, hdrift, reduceCtorEq, false_or,
    List.mem_map] at hmem
  rcases hmem with (⟨s, hs, hsummary⟩ | hmem) | hmem
  · exact .inl ⟨s, hs, hsummary⟩
  · rw [fusedSummary] at hmem
    exact .inr (.inl (by rw [Effect.hmSet.inj hmem]))
  · split at hmem
    · rw [List.mem_singleton] at hmem
      exact .inr (.inr (by rw [Effect.hmSet.inj hmem]))
    · exact absurd hmem List.not_mem_nil

/-- The two writes that a hardware clock adds. -/
def phcEffects (cfg : Config) (ts : UInt64) (smoothed : F64) (offset : Int) : List Effect :=
  [.tsAdd { key := .phc .systemOffset, tsNs := ts, val := offset, windowNs := cfg.windowNs },
   .tsAdd { key := .phc .fusedDelta, tsNs := ts, val := smoothed - offset,
            windowNs := cfg.windowNs }]

/-- A hardware clock adds entries only. -/
theorem mem_phcEffects {cfg : Config} {ts : UInt64} {smoothed : F64} {offset : Int}
    {rest : List Effect} {e : Effect} (he : e ∈ phcEffects cfg ts smoothed offset ++ rest) :
    (∃ metric val,
      e = .tsAdd { key := .phc metric, tsNs := ts, val := val, windowNs := cfg.windowNs }) ∨
      e ∈ rest := by
  simp only [phcEffects, List.cons_append, List.nil_append, List.mem_cons] at he
  rcases he with he | he | he
  · exact .inl ⟨_, _, he⟩
  · exact .inl ⟨_, _, he⟩
  · exact .inr he

inductive FusionTask where
  | idle
  /-- At the head of a collection loop, with the sources still to read. -/
  | collecting (since : UInt64) (todo : List Source) (samples : List PeerSample)
  | delays (since : UInt64) (src : Source) (offsets : List (UInt64 × F64)) (todo : List Source)
    (samples : List PeerSample)
  | jitters (since : UInt64) (src : Source) (offsets delays : List (UInt64 × F64))
    (todo : List Source) (samples : List PeerSample)
  | publishing (effects : List Effect)
  /-- A slice index was out of range. -/
  | panicked
  deriving DecidableEq

structure FusionState where
  ewma : WeightedEwma
  ring : Ring := []
  task : FusionTask := .idle
  deriving DecidableEq

inductive FusionAction where
  | tick (now : UInt64)
  /-- One `ts_recent` call with its reply; no reply is an error. -/
  | recent (key : SeriesKey) (since : UInt64) (limit : Nat) (reply : Option (List Entry))
  | fuse (ts : UInt64)
  | publish
  /-- `phc_system_offset`, with the clocks at its two readings. -/
  | phcOffset (c c' : Clocks)

inductive FusionEvent where
  /-- The mean and the value that `push` returned. -/
  | fused (f : Fused)
  | tsAdd (w : TsAdd)
  | slewed (offsetNs driftPpm : F64) (command : Timex)
  | hmSet (h : HmSet)
  deriving DecidableEq

def FusionState.init (cfg : Config) : FusionState := { ewma := .new cfg.filter.lambda }

/-! ## Steps -/

def afterEffects (rest : List Effect) : FusionTask :=
  if rest.isEmpty then .idle else .publishing rest

/-- What the reply to the read of a task leads to; an error ends the iteration. -/
def FusionTask.onReply (cfg : Config) (reply : Option (List Entry)) : FusionTask → FusionTask
  | .collecting since (src :: todo) samples =>
    match reply with
    | none => .idle
    | some entries =>
      if entries.length < readLimit cfg then .collecting since todo samples
      else .delays since src (entries.map Entry.reading) todo samples
  | .delays since src offset todo samples =>
    match reply with
    | none => .idle
    | some entries => .jitters since src offset (entries.map Entry.reading) todo samples
  | .jitters since src offset delay todo samples =>
    match reply with
    | none => .idle
    | some entries => .collecting since todo
        (samples ++ [.fromSeries src.id src.weight offset delay (entries.map Entry.reading)])
  | task => task

/-- The samples of an iteration that has read all of its sources. -/
def FusionTask.collected? : FusionTask → Option (List PeerSample)
  | .collecting _ [] samples => some samples
  | _ => none

/-- The series that a task reads next, with the start of its window. -/
def FusionTask.reads : FusionTask → Option (SeriesKey × UInt64)
  | .collecting since (src :: _) _ => some (src.offsetKey, since)
  | .delays since src _ _ _ => some (src.delayKey, since)
  | .jitters since src _ _ _ _ => some (src.jitterKey, since)
  | _ => none

def fusionStep (cfg : Config) (s : FusionState) :
    FusionAction → Option (FusionState × List FusionEvent)
  | .tick now =>
    match s.task with
    | .idle =>
      -- the loop skips the iteration when no peer is configured
      if cfg.peers.isEmpty then some (s, [])
      else some ({ s with
        task := .collecting (saturatingSub now cfg.windowNs) (sources cfg) [] }, [])
    | _ => none
  | .recent key since limit reply =>
    if s.task.reads = some (key, since) ∧ limit = readLimit cfg then
      some ({ s with task := s.task.onReply cfg reply }, [])
    else none
  | .fuse ts =>
    match s.task with
    | .collecting _ [] samples =>
      match fuseSamples cfg.filter s.ewma samples with
      | none => some ({ s with task := .panicked }, [])
      | some (none, ewma) => some ({ s with ewma := ewma, task := .idle }, [])
      | some (some f, ewma) =>
        let ring := pushRing s.ring (ts, F64.toI64 f.smoothed)
        some ({ ewma := ewma, ring := ring,
                task := .publishing (publishEffects cfg ts f ring samples) }, [.fused f])
    | _ => none
  | .publish =>
    match s.task with
    | .publishing (.tsAdd w :: rest) => some ({ s with task := afterEffects rest }, [.tsAdd w])
    | .publishing (.slew offset drift :: rest) =>
      some ({ s with task := afterEffects rest },
        [.slewed offset drift (slewApply offset drift)])
    | .publishing (.hmSet h :: rest) => some ({ s with task := afterEffects rest }, [.hmSet h])
    | _ => none
  | .phcOffset c c' =>
    match s.task with
    | .publishing (.phcOffset ts smoothed :: rest) =>
      match phcSystemOffset cfg.phcDevice c c' with
      | none => some ({ s with task := .idle }, [])
      | some none => some ({ s with task := afterEffects rest }, [])
      | some (some offset) =>
        some ({ s with task := .publishing (phcEffects cfg ts smoothed offset ++ rest) }, [])
    | _ => none

def fusion (cfg : Config) : Machine FusionState FusionAction FusionEvent := ⟨fusionStep cfg⟩

abbrev FusionTurn := Turn FusionState FusionAction FusionEvent

/-- The sources that are not done with. -/
def FusionTask.ahead : FusionTask → List Source
  | .collecting _ todo _ => todo
  | .delays _ src _ todo _ => src :: todo
  | .jitters _ src _ _ todo _ => src :: todo
  | _ => []

inductive FusionStep (cfg : Config) :
    FusionState → FusionAction → FusionState → List FusionEvent → Prop where
  | skip {s : FusionState} (now : UInt64) (hidle : s.task = .idle) (hpeers : cfg.peers = []) :
      FusionStep cfg s (.tick now) s []
  | tick {s : FusionState} (now : UInt64) (hidle : s.task = .idle) (hpeers : cfg.peers ≠ []) :
      FusionStep cfg s (.tick now)
        { s with task := .collecting (saturatingSub now cfg.windowNs) (sources cfg) [] } []
  | failed {s : FusionState} {key : SeriesKey} {since : UInt64}
      (hreads : s.task.reads = some (key, since)) :
      FusionStep cfg s (.recent key since (readLimit cfg) none) { s with task := .idle } []
  | sparse {s : FusionState} {since : UInt64} {src : Source} {todo : List Source}
      {samples : List PeerSample} {entries : List Entry}
      (htask : s.task = .collecting since (src :: todo) samples)
      (hfew : entries.length < readLimit cfg) :
      FusionStep cfg s (.recent src.offsetKey since (readLimit cfg) (some entries))
        { s with task := .collecting since todo samples } []
  | enough {s : FusionState} {since : UInt64} {src : Source} {todo : List Source}
      {samples : List PeerSample} {entries : List Entry}
      (htask : s.task = .collecting since (src :: todo) samples)
      (hmany : readLimit cfg ≤ entries.length) :
      FusionStep cfg s (.recent src.offsetKey since (readLimit cfg) (some entries))
        { s with task := .delays since src (entries.map Entry.reading) todo samples } []
  | delays {s : FusionState} {since : UInt64} {src : Source} {offsets : List (UInt64 × F64)}
      {todo : List Source} {samples : List PeerSample} (entries : List Entry)
      (htask : s.task = .delays since src offsets todo samples) :
      FusionStep cfg s (.recent src.delayKey since (readLimit cfg) (some entries))
        { s with task := .jitters since src offsets (entries.map Entry.reading) todo samples } []
  | jitters {s : FusionState} {since : UInt64} {src : Source}
      {offsets delays : List (UInt64 × F64)} {todo : List Source} {samples : List PeerSample}
      (entries : List Entry) (htask : s.task = .jitters since src offsets delays todo samples) :
      FusionStep cfg s (.recent src.jitterKey since (readLimit cfg) (some entries))
        { s with task := .collecting since todo (samples ++
          [.fromSeries src.id src.weight offsets delays (entries.map Entry.reading)]) } []
  | panic {s : FusionState} {since : UInt64} {samples : List PeerSample} (ts : UInt64)
      (htask : s.task = .collecting since [] samples)
      (hfuse : fuseSamples cfg.filter s.ewma samples = none) :
      FusionStep cfg s (.fuse ts) { s with task := .panicked } []
  | nothing {s : FusionState} {since : UInt64} {samples : List PeerSample} {ewma : WeightedEwma}
      (ts : UInt64) (htask : s.task = .collecting since [] samples)
      (hfuse : fuseSamples cfg.filter s.ewma samples = some (none, ewma)) :
      FusionStep cfg s (.fuse ts) { s with ewma := ewma, task := .idle } []
  | fuse {s : FusionState} {since : UInt64} {samples : List PeerSample} {ewma : WeightedEwma}
      {f : Fused} (ts : UInt64) (htask : s.task = .collecting since [] samples)
      (hfuse : fuseSamples cfg.filter s.ewma samples = some (some f, ewma)) :
      FusionStep cfg s (.fuse ts)
        { ewma := ewma
          ring := pushRing s.ring (ts, F64.toI64 f.smoothed)
          task := .publishing (publishEffects cfg ts f
            (pushRing s.ring (ts, F64.toI64 f.smoothed)) samples) } [.fused f]
  | tsAdd {s : FusionState} {w : TsAdd} {rest : List Effect}
      (htask : s.task = .publishing (.tsAdd w :: rest)) :
      FusionStep cfg s .publish { s with task := afterEffects rest } [.tsAdd w]
  | slew {s : FusionState} {offset drift : F64} {rest : List Effect}
      (htask : s.task = .publishing (.slew offset drift :: rest)) :
      FusionStep cfg s .publish { s with task := afterEffects rest }
        [.slewed offset drift (slewApply offset drift)]
  | hmSet {s : FusionState} {h : HmSet} {rest : List Effect}
      (htask : s.task = .publishing (.hmSet h :: rest)) :
      FusionStep cfg s .publish { s with task := afterEffects rest } [.hmSet h]
  | phcFailed {s : FusionState} {c c' : Clocks} {ts : UInt64} {smoothed : F64}
      {rest : List Effect} (htask : s.task = .publishing (.phcOffset ts smoothed :: rest))
      (hclock : phcSystemOffset cfg.phcDevice c c' = none) :
      FusionStep cfg s (.phcOffset c c') { s with task := .idle } []
  | phcAbsent {s : FusionState} {c c' : Clocks} {ts : UInt64} {smoothed : F64}
      {rest : List Effect} (htask : s.task = .publishing (.phcOffset ts smoothed :: rest))
      (hclock : phcSystemOffset cfg.phcDevice c c' = some none) :
      FusionStep cfg s (.phcOffset c c') { s with task := afterEffects rest } []
  | phcRead {s : FusionState} {c c' : Clocks} {ts : UInt64} {smoothed : F64}
      {rest : List Effect} {offset : Int}
      (htask : s.task = .publishing (.phcOffset ts smoothed :: rest))
      (hclock : phcSystemOffset cfg.phcDevice c c' = some (some offset)) :
      FusionStep cfg s (.phcOffset c c')
        { s with task := .publishing (phcEffects cfg ts smoothed offset ++ rest) } []

variable {cfg : Config}

/-- A read is the one that the task is waiting for, and its reply leads on. -/
theorem fusionStep_recent {s s' : FusionState} {key : SeriesKey} {since : UInt64} {limit : Nat}
    {reply : Option (List Entry)} {es : List FusionEvent}
    (hstep : (fusion cfg).step s (.recent key since limit reply) = some (s', es)) :
    s.task.reads = some (key, since) ∧ limit = readLimit cfg ∧
      s' = { s with task := s.task.onReply cfg reply } ∧ es = [] := by
  change fusionStep cfg s (.recent key since limit reply) = some (s', es) at hstep
  simp only [fusionStep] at hstep
  split at hstep
  · rename_i hreads
    obtain ⟨rfl, rfl⟩ := Prod.mk.inj (Option.some.inj hstep)
    exact ⟨hreads.1, hreads.2, rfl, rfl⟩
  · contradiction

private theorem FusionStep.of_reply {s : FusionState} {key : SeriesKey} {since : UInt64}
    {reply : Option (List Entry)} (hreads : s.task.reads = some (key, since)) :
    FusionStep cfg s (.recent key since (readLimit cfg) reply)
      { s with task := s.task.onReply cfg reply } [] := by
  cases htask : s.task with
  | idle
  | publishing
  | panicked =>
    rw [htask] at hreads
    contradiction
  | collecting since' todo samples =>
    cases todo with
    | nil =>
      rw [htask] at hreads
      contradiction
    | cons src todo =>
      cases reply with
      | none => exact .failed hreads
      | some entries =>
        rw [htask] at hreads
        obtain ⟨rfl, rfl⟩ := Prod.mk.inj (Option.some.inj hreads)
        by_cases hfew : entries.length < readLimit cfg
        · simpa [FusionTask.onReply, hfew] using FusionStep.sparse htask hfew
        · simpa [FusionTask.onReply, hfew] using FusionStep.enough htask (Nat.le_of_not_lt hfew)
  | delays since' src offsets todo samples =>
    cases reply with
    | none => exact .failed hreads
    | some entries =>
      rw [htask] at hreads
      obtain ⟨rfl, rfl⟩ := Prod.mk.inj (Option.some.inj hreads)
      exact .delays entries htask
  | jitters since' src offsets delays todo samples =>
    cases reply with
    | none => exact .failed hreads
    | some entries =>
      rw [htask] at hreads
      obtain ⟨rfl, rfl⟩ := Prod.mk.inj (Option.some.inj hreads)
      exact .jitters entries htask

theorem FusionStep.of_step {s s' : FusionState} {a : FusionAction} {es : List FusionEvent}
    (hstep : (fusion cfg).step s a = some (s', es)) : FusionStep cfg s a s' es := by
  change fusionStep cfg s a = some (s', es) at hstep
  cases a with
  | tick now =>
    simp only [fusionStep] at hstep
    split at hstep
    · rename_i hidle
      split at hstep
      · rename_i hpeers
        obtain ⟨rfl, rfl⟩ := Prod.mk.inj (Option.some.inj hstep)
        exact .skip now hidle (List.isEmpty_iff.mp hpeers)
      · rename_i hpeers
        obtain ⟨rfl, rfl⟩ := Prod.mk.inj (Option.some.inj hstep)
        exact .tick now hidle (fun h => hpeers (List.isEmpty_iff.mpr h))
    · contradiction
  | recent key since limit reply =>
    obtain ⟨hreads, rfl, rfl, rfl⟩ := fusionStep_recent hstep
    exact .of_reply hreads
  | fuse ts =>
    simp only [fusionStep] at hstep
    split at hstep
    · rename_i htask
      split at hstep
      all_goals
        rename_i hfuse
        obtain ⟨rfl, rfl⟩ := Prod.mk.inj (Option.some.inj hstep)
      · exact .panic ts htask hfuse
      · exact .nothing ts htask hfuse
      · exact .fuse ts htask hfuse
    · contradiction
  | publish =>
    simp only [fusionStep] at hstep
    split at hstep
    all_goals first
      | contradiction
      | rename_i htask
        obtain ⟨rfl, rfl⟩ := Prod.mk.inj (Option.some.inj hstep)
    · exact .tsAdd htask
    · exact .slew htask
    · exact .hmSet htask
  | phcOffset c c' =>
    simp only [fusionStep] at hstep
    split at hstep
    · rename_i htask
      split at hstep
      all_goals
        rename_i hclock
        obtain ⟨rfl, rfl⟩ := Prod.mk.inj (Option.some.inj hstep)
      · exact .phcFailed htask hclock
      · exact .phcAbsent htask hclock
      · exact .phcRead htask hclock
    · contradiction

def FusionTask.effects : FusionTask → List Effect
  | .publishing effects => effects
  | _ => []

@[simp] theorem effects_afterEffects (rest : List Effect) : (afterEffects rest).effects = rest := by
  cases rest <;> rfl

/-- Where a step has something to publish from: it was to be published before, the step fuses the
samples of the iteration, or it reads the hardware clock. -/
inductive EffectOrigin (cfg : Config) (s : FusionState) (a : FusionAction) : Effect → Prop where
  | pending {e : Effect} (he : e ∈ s.task.effects) : EffectOrigin cfg s a e
  | fused {e : Effect} (ts : UInt64) {since : UInt64} {samples : List PeerSample} {f : Fused}
      {ring : Ring} (ha : a = .fuse ts) (htask : s.task = .collecting since [] samples)
      (he : e ∈ publishEffects cfg ts f ring samples) : EffectOrigin cfg s a e
  | clock (metric : PhcMetric) (ts : UInt64) (val : F64) : EffectOrigin cfg s a
      (.tsAdd { key := .phc metric, tsNs := ts, val := val, windowNs := cfg.windowNs })

theorem FusionStep.origin {s s' : FusionState} {a : FusionAction} {es : List FusionEvent}
    (hstep : FusionStep cfg s a s' es) {e : Effect} (he : e ∈ s'.task.effects) :
    EffectOrigin cfg s a e := by
  cases hstep with
  | skip => exact .pending he
  | fuse ts htask => exact .fused ts rfl htask he
  | tsAdd htask
  | slew htask
  | hmSet htask
  | phcAbsent htask =>
    rw [effects_afterEffects] at he
    apply EffectOrigin.pending
    rw [htask]
    exact List.mem_cons_of_mem _ he
  | @phcRead c c' ts _ _ _ htask =>
    rcases mem_phcEffects he with ⟨metric, val, rfl⟩ | he
    · exact .clock metric ts val
    · apply EffectOrigin.pending
      rw [htask]
      exact List.mem_cons_of_mem _ he
  | _ => contradiction

/-- What is published was to be published. -/
theorem FusionStep.published {s s' : FusionState} {a : FusionAction} {es : List FusionEvent}
    (hstep : FusionStep cfg s a s' es) :
    (∀ w, .tsAdd w ∈ es → .tsAdd w ∈ s.task.effects) ∧
      ∀ h, .hmSet h ∈ es → .hmSet h ∈ s.task.effects := by
  cases hstep with
  | tsAdd htask
  | hmSet htask =>
    rw [htask]
    simp [FusionTask.effects]
  | _ => simp

private theorem ahead_afterEffects (rest : List Effect) : (afterEffects rest).ahead = [] := by
  cases rest <;> rfl

/-- The sources of an iteration are read in their order. -/
theorem FusionStep.ahead {s s' : FusionState} {a : FusionAction} {es : List FusionEvent}
    (hstep : FusionStep cfg s a s' es) (h : s.task.ahead <:+ sources cfg) :
    s'.task.ahead <:+ sources cfg := by
  cases hstep with
  | skip => exact h
  | tick => exact List.suffix_refl _
  | sparse htask
  | jitters entries htask =>
    rw [htask] at h
    exact (List.suffix_cons _ _).trans h
  | enough htask
  | delays entries htask =>
    rw [htask] at h
    exact h
  | tsAdd
  | slew
  | hmSet
  | phcAbsent =>
    rw [ahead_afterEffects]
    exact List.nil_suffix
  | _ => exact List.nil_suffix

theorem run_ahead {ts : List FusionTurn} {s : FusionState}
    (hrun : (fusion cfg).Run (.init cfg) ts s) : s.task.ahead <:+ sources cfg := by
  induction hrun with
  | start => exact List.nil_suffix
  | turn _ hstep ih => exact (FusionStep.of_step hstep).ahead ih

/-- The three series of a source that an iteration reads. -/
def Source.readKeys (src : Source) : List SeriesKey := [src.offsetKey, src.delayKey, src.jitterKey]

/-- The key is that of a series which an iteration reads. -/
def isReadKey (cfg : Config) (key : SeriesKey) : Bool :=
  (sources cfg).any fun src => key ∈ src.readKeys

theorem isReadKey_iff {key : SeriesKey} :
    isReadKey cfg key = true ↔ ∃ src ∈ sources cfg, key ∈ src.readKeys := by
  simp [isReadKey]

theorem FusionTask.reads_mem {task : FusionTask} {key : SeriesKey} {since : UInt64}
    (hreads : task.reads = some (key, since)) : ∃ src ∈ task.ahead, key ∈ src.readKeys := by
  cases task with
  | collecting since' todo samples =>
    cases todo with
    | nil => contradiction
    | cons src todo =>
      obtain ⟨rfl, rfl⟩ := Prod.mk.inj (Option.some.inj hreads)
      exact ⟨src, List.mem_cons_self, by simp [Source.readKeys]⟩
  | delays since' src offsets todo samples
  | jitters since' src offsets delays todo samples =>
    obtain ⟨rfl, rfl⟩ := Prod.mk.inj (Option.some.inj hreads)
    exact ⟨src, List.mem_cons_self, by simp [Source.readKeys]⟩
  | _ => contradiction

end Zeitpeer
