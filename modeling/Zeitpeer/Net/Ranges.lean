import Mathlib.Algebra.Order.AbsoluteValue.Basic
import Zeitpeer.Framework.Contract
import Zeitpeer.Net.Leftovers
import Zeitpeer.Net.Memory
import Zeitpeer.Store.Ranges
import Zeitpeer.Time.Consensus

/-!
# Every number in its range

What a node writes comes from 64-bit readings, from packets that anyone may have sent, and from
what is in the store. If the store and those who write to it from outside keep to the ranges, so
does every task, and no run of any number of nodes leaves a number out of its range.
-/

namespace Zeitpeer

open Framework Machine Ensemble

variable {parse : String → UInt16 → Option SocketAddr} {cfg : Config}

private theorem intCast_mem_spans {n : Int} (hlow : -2 ^ 65 ≤ n) (hhigh : n ≤ 2 ^ 65) :
    (n : F64) ∈ spans := by
  constructor
  · exact_mod_cast hlow
  · exact_mod_cast hhigh

private theorem ofInt_mem_spans {n : Int} (hlow : -2 ^ 65 ≤ n) (hhigh : n ≤ 2 ^ 65) :
    F64.ofInt n ∈ spans :=
  abs_le.mp (F64.abs_ofInt_le (abs_le.mpr ⟨hlow, hhigh⟩))

private theorem zero_mem_spans : (0 : F64) ∈ spans := by
  constructor <;> norm_num

private theorem sub_mem_gaps {x y : F64} (hx : x ∈ spans) (hy : y ∈ spans) : x - y ∈ gaps := by
  obtain ⟨hlow, hhigh⟩ := hx
  obtain ⟨hlow', hhigh'⟩ := hy
  constructor <;> linarith

private theorem abs_mem_jitters {x : F64} (hx : x ∈ gaps) : |x| ∈ jitters :=
  ⟨abs_nonneg x, abs_le.mpr hx⟩

private theorem zero_mem_jitters : (0 : F64) ∈ jitters := by
  constructor <;> norm_num

/-- A value of a 64-bit clock. -/
def IsReading (n : Int) : Prop := ∃ t : UInt64, n = t.toNat

private theorem Exchange.spans {e : Exchange} (h : IsReading e.req.t1Ns) :
    F64.ofInt e.calc.offsetNs ∈ spans ∧ F64.ofInt e.calc.delayNs ∈ spans := by
  obtain ⟨t1, ht1⟩ := h
  obtain ⟨hdelay, hoffset⟩ :=
    @computeOffsetDelay_range t1 e.resp.t2RecvNs e.resp.t3SendNs e.t4
  rw [← ht1] at hdelay hoffset
  rw [abs_lt] at hdelay hoffset
  exact ⟨ofInt_mem_spans hoffset.1.le hoffset.2.le, ofInt_mem_spans hdelay.1.le hdelay.2.le⟩

private theorem sampleWrites_inRange {e : Exchange} {jitter : F64} (h : IsReading e.req.t1Ns)
    (hjitter : jitter ∈ jitters) : ∀ w ∈ sampleWrites cfg e jitter, w.val ∈ w.key.range := by
  obtain ⟨hoffset, hdelay⟩ := e.spans h
  intro w hw
  simp only [sampleWrites, List.mem_cons, List.not_mem_nil, or_false] at hw
  rcases hw with rfl | rfl | rfl | rfl
  · exact hoffset
  · exact hdelay
  · exact hjitter
  · have hquality : (e.resp.serverQuality.toNat : F64) < 2 ^ 32 := by
      exact_mod_cast e.resp.serverQuality.toNat_lt
    exact ⟨Nat.cast_nonneg _, hquality⟩

private theorem latencyWrite_inRange (resp : TimeResponse) (now : UInt64) :
    (latencyWrite cfg resp now).val ∈ (latencyWrite cfg resp now).key.range := by
  have hsend := resp.t3SendNs.toNat_lt
  have hnonneg : 0 ≤ max ((resp.t3SendNs.toNat : Int) - resp.t2RecvNs.toNat) 0 := le_max_right _ _
  have hless : max ((resp.t3SendNs.toNat : Int) - resp.t2RecvNs.toNat) 0 ≤ 2 ^ 64 := by omega
  simp only [latencyWrite, SeriesKey.range]
  refine ⟨F64.ofInt_nonneg hnonneg, (le_abs_self _).trans (F64.abs_ofInt_le ?_)⟩
  rwa [abs_of_nonneg hnonneg]

/-- What the receive loop has in hand is in range. -/
def RxTask.InRange : RxTask → Prop
  | .matched e => IsReading e.req.t1Ns
  | .storing _ writes => ∀ w ∈ writes, w.val ∈ w.key.range
  | _ => True

structure NodeState.InRange (s : NodeState) : Prop where
  pending : ∀ seq req, s.pending.lookup seq = some req → IsReading req.t1Ns
  runtime : ∀ id entry, s.runtime.lookup id = some entry → ∀ d ∈ entry.lastDelayNs, d ∈ spans
  rx : s.rx.InRange

private theorem NodeStep.runtime_lookup {s s' : NodeState} {a : Action} {es : List Event}
    (hstep : NodeStep parse cfg s a s' es) {id : UInt32} {entry : PeerRuntime}
    (hsome : s'.runtime.lookup id = some entry) :
    s.runtime.lookup id = some entry ∨
      ∃ e, s.rx = .matched e ∧ entry = nextRuntime s.runtime e := by
  cases hstep with
  | @runtime e hrx =>
    by_cases hid : id = e.resp.serverId
    · subst hid
      rw [AList.lookup_insert] at hsome
      exact .inr ⟨e, hrx, (Option.some.inj hsome).symm⟩
    · rw [AList.lookup_insert_ne hid] at hsome
      exact .inl hsome
  | _ => exact .inl hsome

private theorem NodeState.InRange.jitter {s : NodeState} (h : s.InRange) {e : Exchange}
    (hreading : IsReading e.req.t1Ns) :
    (nextRuntime s.runtime e).lastJitterNs.getD 0 ∈ jitters := by
  change jitterOf (runtimeEntry s.runtime e.resp.serverId) (F64.ofInt e.calc.delayNs) ∈ jitters
  rw [jitterOf]
  cases hdelay : (runtimeEntry s.runtime e.resp.serverId).lastDelayNs with
  | none => exact zero_mem_jitters
  | some prev =>
    apply abs_mem_jitters
    apply sub_mem_gaps (e.spans hreading).2
    cases hentry : s.runtime.lookup e.resp.serverId with
    | none => simp [runtimeEntry, hentry] at hdelay
    | some entry =>
      rw [runtimeEntry, hentry] at hdelay
      exact h.runtime _ entry hentry prev hdelay

private theorem NodeStep.inRange {s s' : NodeState} {a : Action} {es : List Event}
    (hstep : NodeStep parse cfg s a s' es) (h : s.InRange) :
    s'.InRange ∧ ∀ w c, .tsAdd w c ∈ es → w.val ∈ w.key.range := by
  have hrx := h.rx
  have hpending : ∀ seq req, s'.pending.lookup seq = some req → IsReading req.t1Ns := by
    intro seq req hsome
    rcases hstep.pending_origin hsome with hsome | ⟨probe, rfl⟩
    · exact h.pending seq req hsome
    · exact ⟨probe.t1, rfl⟩
  have hruntime : ∀ id entry, s'.runtime.lookup id = some entry →
      ∀ d ∈ entry.lastDelayNs, d ∈ spans := by
    intro id entry hsome
    rcases hstep.runtime_lookup hsome with hsome | ⟨e, htask, rfl⟩
    · exact h.runtime id entry hsome
    · intro d hd
      obtain rfl := Option.some.inj hd
      rw [htask] at hrx
      exact (e.spans hrx).2
  suffices hnext : s'.rx.InRange ∧ ∀ w c, .tsAdd w c ∈ es → w.val ∈ w.key.range from
    ⟨⟨hpending, hruntime, hnext.1⟩, hnext.2⟩
  cases hstep with
  | expire =>
    refine ⟨hrx, ?_⟩
    intro w c hw
    obtain ⟨rfl, _⟩ := Event.tsAdd.inj (List.mem_singleton.mp hw)
    rfl
  | latency =>
    refine ⟨trivial, ?_⟩
    intro w c hw
    obtain ⟨rfl, _⟩ := Event.tsAdd.inj (List.mem_singleton.mp hw)
    exact latencyWrite_inRange _ _
  | «match» htask hsome => exact ⟨h.pending _ _ hsome, by simp⟩
  | runtime htask =>
    rw [htask] at hrx
    exact ⟨sampleWrites_inRange hrx (h.jitter hrx), by simp⟩
  | @store e w rest htask =>
    rw [htask] at hrx
    obtain ⟨hw, hrest⟩ := List.forall_mem_cons.mp hrx
    refine ⟨?_, ?_⟩
    · cases rest with
      | nil => trivial
      | cons w' rest => exact hrest
    · intro v c hv
      obtain ⟨rfl, _⟩ := Event.tsAdd.inj (List.mem_singleton.mp hv)
      exact hw
  | recvRequest
  | recvResponse
  | readT2
  | readT3
  | reply
  | replyFailed
  | readT4
  | orphan
  | mismatch => exact ⟨trivial, by simp⟩
  | _ => exact ⟨hrx, by simp⟩

private theorem timestampAt_between {resp : List UInt8} {place : Nat} {ns : Int}
    (h : timestampAt resp place = some ns) :
    -2208988800 * 10 ^ 9 ≤ ns ∧ ns ≤ 2085978496 * 10 ^ 9 := by
  rw [timestampAt] at h
  generalize (resp.drop place).take 8 = buf at h
  have hsecs := ofBeBytes_lt (buf.take 4)
  have hfrac := ofBeBytes_lt ((buf.drop 4).take 4)
  have hsecsPow : 256 ^ (buf.take 4).length ≤ 256 ^ 4 :=
    Nat.pow_le_pow_right (by norm_num) (List.length_take_le _ _)
  have hfracPow : 256 ^ ((buf.drop 4).take 4).length ≤ 256 ^ 4 :=
    Nat.pow_le_pow_right (by norm_num) (List.length_take_le _ _)
  simp only [decodeNtpTimestamp, NTP_UNIX_TO_1900] at h
  split at h
  · contradiction
  · split at h
    all_goals
      obtain rfl := Option.some.inj h
      omega

structure NtpSample.InRange (sample : NtpSample) : Prop where
  offset : (sample.offsetNs : F64) ∈ spans
  delay : (sample.delayNs : F64) ∈ spans
  remote : (sample.remoteTimeNs : F64) / 1000000000 ∈ eraSeconds

private theorem ntpSample_inRange {t1 t4 : UInt64} {resp : List UInt8} {sample : NtpSample}
    (h : ntpSample t1 resp t4 = some sample) : sample.InRange := by
  obtain ⟨r1, hr1, h⟩ := Option.bind_eq_some_iff.mp h
  obtain ⟨r2, hr2, h⟩ := Option.bind_eq_some_iff.mp h
  obtain ⟨r3, hr3, h⟩ := Option.bind_eq_some_iff.mp h
  obtain rfl := Option.some.inj h
  have h1 := timestampAt_between hr1
  have h2 := timestampAt_between hr2
  have h3 := timestampAt_between hr3
  have hsend := t1.toNat_lt
  have hreceive := t4.toNat_lt
  have horiginate : ∃ x : Int, (if r1 = 0 then (t1.toNat : Int) else r1) = x ∧
      -2208988800 * 10 ^ 9 ≤ x ∧ x < 2 ^ 64 := by
    split
    · exact ⟨_, rfl, by omega, by omega⟩
    · exact ⟨_, rfl, by omega, by omega⟩
  obtain ⟨x, hx, hlow, hhigh⟩ := horiginate
  refine ⟨?_, ?_, ?_⟩
  · have htrunc := abs_le.mp (abs_two_mul_tdiv_two_sub_le ((r2 - x) + (r3 - t4.toNat)))
    simp only [hx, computeOffsetDelay]
    apply intCast_mem_spans <;> omega
  · simp only [hx, computeOffsetDelay]
    apply intCast_mem_spans <;> omega
  · have hlow3 : (-2208988800 * 10 ^ 9 : F64) ≤ r3 := by exact_mod_cast h3.1
    have hhigh3 : (r3 : F64) ≤ 2085978496 * 10 ^ 9 := by exact_mod_cast h3.2
    constructor
    · linarith
    · linarith

structure Measured.InRange (m : Measured) : Prop extends m.sample.InRange where
  jitter : m.jitter ∈ jitters
  driftPpm : m.driftPpm ∈ drifts

private theorem zero_mem_drifts : (0 : F64) ∈ drifts := by
  constructor <;> norm_num

private theorem driftPpm_mem_drifts {s : PollerState} {sample : NtpSample}
    (hsample : sample.InRange)
    (hlast : ∀ x ∈ s.lastOffset, x ∈ spans) : driftPpm s sample ∈ drifts := by
  unfold driftPpm
  split
  · rename_i prevOffset prevTs hoffset hts
    split
    · rename_i hless
      have hgap := sub_mem_gaps hsample.offset (hlast prevOffset hoffset)
      have hpos : 1 ≤ (sample.timestampNs - prevTs).toNat := by
        have hnat : prevTs.toNat < sample.timestampNs.toNat := UInt64.lt_iff_toNat_lt.mp hless
        rw [UInt64.toNat_sub_of_le _ _ (UInt64.le_of_lt hless)]
        omega
      have hdenom : (1 : F64) ≤ (sample.timestampNs - prevTs).toNat := by exact_mod_cast hpos
      generalize ((sample.timestampNs - prevTs).toNat : F64) = n at hdenom ⊢
      have hquot : |((sample.offsetNs : F64) - prevOffset) / n| ≤ 2 ^ 66 := by
        rw [abs_div, abs_of_nonneg (zero_le_one.trans hdenom)]
        exact (div_le_self (abs_nonneg _) hdenom).trans (abs_le.mpr hgap)
      obtain ⟨hlow, hhigh⟩ := abs_le.mp hquot
      constructor <;> linarith
    · exact zero_mem_drifts
  · exact zero_mem_drifts

/-- What a poll still has to store is in range, and so are the fields of its summary. -/
def PollerTask.InRange : PollerTask → Prop
  | .storing m todo fields =>
    m.InRange ∧ (∀ w, .tsAdd w ∈ todo → w.val ∈ w.key.range) ∧ FieldsInRange fields
  | _ => True

structure PollerState.InRange (s : PollerState) : Prop where
  lastDelay : ∀ x ∈ s.lastDelay, x ∈ spans
  lastOffset : ∀ x ∈ s.lastOffset, x ∈ spans
  task : s.task.InRange

private theorem measure_inRange {s : PollerState} (h : s.InRange) {sample : NtpSample}
    (hsample : sample.InRange) : (measure s sample).InRange := by
  refine ⟨hsample, ?_, driftPpm_mem_drifts hsample h.lastOffset⟩
  change (s.lastDelay.map fun prev => |(sample.delayNs : F64) - prev|).getD 0 ∈ jitters
  cases hdelay : s.lastDelay with
  | none => exact zero_mem_jitters
  | some prev => exact abs_mem_jitters (sub_mem_gaps hsample.delay (h.lastDelay prev hdelay))

private theorem Measured.InRange.systemDelta {m : Measured} (h : m.InRange) (c : Clocks) :
    systemDelta m c ∈ deltas := by
  have hnow : ∀ now : Option UInt64,
      0 ≤ (now.map fun ns => (ns.toNat : F64) / 1000000000).getD 0 ∧
        (now.map fun ns => (ns.toNat : F64) / 1000000000).getD 0 ≤ 2 ^ 64 / 1000000000 := by
    intro now
    cases now with
    | none => exact ⟨le_rfl, by positivity⟩
    | some ns =>
      have hle : (ns.toNat : F64) ≤ 2 ^ 64 := by exact_mod_cast ns.toNat_lt.le
      constructor
      · exact div_nonneg (Nat.cast_nonneg _) (by norm_num)
      · exact div_le_div_of_nonneg_right hle (by norm_num)
  obtain ⟨hlow, hhigh⟩ := h.remote
  obtain ⟨hzero, hmost⟩ := hnow (systemNowNs c)
  rw [Zeitpeer.systemDelta, remoteSeconds]
  constructor <;> linarith

private theorem stratum_mem_octets (sample : NtpSample) :
    (sample.stratum.toNat : F64) ∈ octets := by
  have hle : (sample.stratum.toNat : F64) ≤ 255 := by
    exact_mod_cast Nat.le_of_lt_succ sample.stratum.toNat_lt
  exact ⟨Nat.cast_nonneg _, hle⟩

private theorem score_between {delay jitter : F64} (hdelay : delay ∈ spans)
    (hjitter : jitter ∈ jitters) : |delay| + jitter ∈ fieldRange "score" := by
  have hmost : |delay| ≤ 2 ^ 65 := abs_le.mpr hdelay
  have hleast := abs_nonneg delay
  obtain ⟨hlow, hhigh⟩ := hjitter
  constructor <;> linarith

private theorem summaryFields_inRange (src : NtpSource) {m : Measured} (h : m.InRange)
    (c : Clocks) : FieldsInRange (summaryFields src m c) := by
  simp only [summaryFields, fieldsInRange_cons, fieldsInRange_nil, and_true]
  refine ⟨h.offset, h.delay, h.jitter, score_between h.delay h.jitter, trivial, ?_, h.driftPpm,
    h.remote, h.systemDelta c⟩
  exact stratum_mem_octets m.sample

private theorem mean_mem_spans {others : List F64} (hne : others ≠ [])
    (h : ∀ x ∈ others, x ∈ spans) : others.sum / others.length ∈ spans := by
  have hpos : (0 : F64) < others.length := by exact_mod_cast List.length_pos_of_ne_nil hne
  have hlow := List.card_nsmul_le_sum others (-2 ^ 65) fun x hx => (h x hx).1
  have hhigh := List.sum_le_card_nsmul others (2 ^ 65) fun x hx => (h x hx).2
  rw [nsmul_eq_mul, mul_comm] at hlow hhigh
  exact ⟨(le_div_iff₀ hpos).mpr hlow, (div_le_iff₀ hpos).mpr hhigh⟩

private theorem offsetVsMean_mem_gaps {m : Measured} (h : m.InRange) {others : List F64}
    (hothers : ∀ x ∈ others, x ∈ spans) {val : F64} (hval : offsetVsMean m others = some val) :
    val ∈ gaps := by
  unfold offsetVsMean at hval
  split at hval
  · contradiction
  · rename_i hne
    obtain rfl := Option.some.inj hval
    exact sub_mem_gaps h.offset (mean_mem_spans (by simpa using hne) hothers)

private theorem withResult_inRange {src : NtpSource} {m : Measured} {metric : NtpMetric}
    {field : String} {result : Option F64} {todo : List PollerEffect} {fields : List (String × F64)}
    (h : (PollerTask.storing m todo fields).InRange)
    (hresult : ∀ val, result = some val →
      val ∈ (SeriesKey.ntp src.id metric).range ∧ val ∈ fieldRange field) :
    (withResult cfg src m metric field result todo fields).InRange := by
  cases result with
  | none => exact h
  | some val =>
    obtain ⟨hm, htodo, hfields⟩ := h
    obtain ⟨hseries, hfield⟩ := hresult val rfl
    refine ⟨hm, ?_, by simp [hfields, hfield]⟩
    intro w hw
    rcases List.mem_cons.mp hw with hw | hw
    · obtain rfl := PollerEffect.tsAdd.inj hw
      exact hseries
    · exact htodo w hw

/-- What a poller stores is in range. -/
def PollerEvent.InRange : PollerEvent → Prop
  | .tsAdd w => w.val ∈ w.key.range
  | .hmSet x => FieldsInRange x.fields
  | _ => True

section PollerTasks

variable {src : NtpSource} {m : Measured} {todo : List PollerEffect} {e : PollerEffect}
  {fields : List (String × F64)}

private theorem storeEffects_inRange (hm : m.InRange) {w : TsAdd}
    (hw : .tsAdd w ∈ storeEffects cfg src m) : w.val ∈ w.key.range := by
  simp only [storeEffects, ntpAdd, List.mem_cons, PollerEffect.tsAdd.injEq, List.not_mem_nil,
    or_false, reduceCtorEq] at hw
  rcases hw with rfl | rfl | rfl | rfl | rfl
  · exact hm.offset
  · exact hm.delay
  · exact hm.jitter
  · exact stratum_mem_octets m.sample
  · exact hm.driftPpm

private theorem PollerState.InRange.sampled {s : PollerState} {sample : NtpSample}
    (h : s.InRange) (hsample : sample.InRange) : (s.sampled cfg src sample).InRange := by
  have hm := measure_inRange h hsample
  refine ⟨?_, ?_, hm, fun w hw => storeEffects_inRange hm hw, fieldsInRange_nil⟩
  · intro x hx
    obtain rfl := Option.some.inj hx
    exact hsample.delay
  · intro x hx
    obtain rfl := Option.some.inj hx
    exact hsample.offset

private theorem PollerTask.InRange.tail (h : (PollerTask.storing m (e :: todo) fields).InRange) :
    (PollerTask.storing m todo fields).InRange := by
  obtain ⟨hm, htodo, hfields⟩ := h
  exact ⟨hm, fun w hw => htodo w (List.mem_cons_of_mem _ hw), hfields⟩

private theorem withSystem_inRange (c : Clocks)
    (h : (PollerTask.storing m todo fields).InRange) :
    (withSystem cfg src m c todo fields).InRange := by
  obtain ⟨hm, htodo, hfields⟩ := h
  refine ⟨hm, ?_, (fieldsInRange_append _ _).mpr ⟨hfields, summaryFields_inRange src hm c⟩⟩
  intro w hw
  simp only [ntpAdd, List.mem_cons, PollerEffect.tsAdd.injEq] at hw
  rcases hw with rfl | rfl | hw
  · exact hm.remote
  · exact hm.systemDelta c
  · exact htodo w hw

private theorem withMean_inRange {others : List F64} (hothers : ∀ x ∈ others, x ∈ spans)
    (h : (PollerTask.storing m todo fields).InRange) :
    (withMean cfg src m others todo fields).InRange := by
  apply withResult_inRange h
  intro val hval
  have hgap := offsetVsMean_mem_gaps h.1 hothers hval
  exact ⟨hgap, hgap⟩

private theorem withPing_inRange (ms : Option F64)
    (h : (PollerTask.storing m todo fields).InRange) :
    (withPing cfg src m ms todo fields).InRange :=
  withResult_inRange h fun _ _ => ⟨trivial, trivial⟩

end PollerTasks

private theorem PollerStep.inRange {src : NtpSource} {s s' : PollerState} {a : PollerAction}
    {es : List PollerEvent} (hstep : PollerStep cfg src s a s' es) (h : s.InRange)
    (hcompare : ∀ others, a = .compare others → ∀ x ∈ others, x ∈ spans) :
    s'.InRange ∧ ∀ e ∈ es, e.InRange := by
  have htask' := h.task
  cases hstep with
  | unread
  | skipped => exact ⟨h, by simp⟩
  | request
  | lost
  | rejected => exact ⟨⟨h.lastDelay, h.lastOffset, trivial⟩, by simp [PollerEvent.InRange]⟩
  | sampled resp c htask hlen hclock hsample =>
    exact ⟨h.sampled (ntpSample_inRange hsample), by simp [PollerEvent.InRange]⟩
  | tsAdd htask =>
    rw [htask] at htask'
    have hw := htask'.2.1 _ List.mem_cons_self
    exact ⟨⟨h.lastDelay, h.lastOffset, htask'.tail⟩, List.forall_mem_singleton.mpr hw⟩
  | hmSet htask =>
    rw [htask] at htask'
    exact ⟨⟨h.lastDelay, h.lastOffset, trivial⟩, List.forall_mem_singleton.mpr htask'.2.2⟩
  | systemNow c htask =>
    rw [htask] at htask'
    exact ⟨⟨h.lastDelay, h.lastOffset, withSystem_inRange c htask'.tail⟩, by simp⟩
  | compare others htask =>
    rw [htask] at htask'
    have hothers := hcompare others rfl
    exact ⟨⟨h.lastDelay, h.lastOffset, withMean_inRange hothers htask'.tail⟩, by simp⟩
  | ping ms htask =>
    rw [htask] at htask'
    exact ⟨⟨h.lastDelay, h.lastOffset, withPing_inRange ms htask'.tail⟩, by simp⟩

/-- A poller that is in range and has found spans so far. -/
structure Comparing.InRange (s : Comparing) : Prop where
  poller : s.poller.InRange
  found : ∀ x ∈ s.found, x ∈ spans

private theorem comparing_inRange {src : NtpSource} {s s' : Comparing} {a : ComparingAction}
    {es : List PollerEvent} (hstep : (comparing cfg src).step s a = some (s', es))
    (h : s.InRange) (hreply : ∀ key fields, a = .getAll key (some fields) → FieldsInRange fields) :
    s'.InRange ∧ ∀ e ∈ es, e.InRange := by
  obtain ⟨b, p, rfl, hready, hlocal, rfl⟩ | ⟨key, reply, rfl, _, _, rfl, rfl⟩ :=
    comparing_cases hstep
  · have hcompare : ∀ others, b = .compare others → ∀ x ∈ others, x ∈ spans := by
      rintro others rfl
      rw [(of_decide_eq_true hready).2]
      exact h.found
    obtain ⟨hp, hevents⟩ := (PollerStep.of_step hlocal).inRange h.poller hcompare
    refine ⟨⟨by rwa [Comparing.after_poller], ?_⟩, hevents⟩
    cases b with
    | compare => simp [Comparing.after]
    | _ => exact h.found
  · refine ⟨⟨h.poller, ?_⟩, by simp⟩
    intro x hx
    rcases List.mem_append.mp hx with hx | hx
    · exact h.found x hx
    · cases reply with
      | none => simp at hx
      | some fields =>
        have hlookup : fields.lookup "offset_ns" = some x := by simpa using hx
        exact (hreply key fields rfl).lookup hlookup

/-! ## The fusion loop -/

structure PeerSample.InRange (s : PeerSample) : Prop where
  offset : s.offsetMedianNs ∈ spans
  delay : s.delayMedianNs ∈ spans
  jitter : s.jitterMedianNs ∈ jitters

/-- What is read of a series is in its range. -/
def ReadingsIn (range : Set F64) (readings : List (UInt64 × F64)) : Prop :=
  ∀ x ∈ readings, x.2 ∈ range

def Effect.InRange : Effect → Prop
  | .tsAdd w => w.val ∈ w.key.range
  | .slew offsetNs _ => offsetNs ∈ spans
  | .phcOffset _ smoothed => smoothed ∈ spans
  | .hmSet h => FieldsInRange h.fields

def FusionTask.InRange : FusionTask → Prop
  | .collecting _ _ samples => ∀ s ∈ samples, s.InRange
  | .delays _ _ offset _ samples => ReadingsIn spans offset ∧ ∀ s ∈ samples, s.InRange
  | .jitters _ _ offset delay _ samples =>
    ReadingsIn spans offset ∧ ReadingsIn spans delay ∧ ∀ s ∈ samples, s.InRange
  | .publishing effects => ∀ e ∈ effects, e.InRange
  | _ => True

structure FusionState.InRange (cfg : Config) (s : FusionState) : Prop where
  ahead : s.task.ahead <:+ sources cfg
  ewma : s.ewma.init = true → s.ewma.state ∈ spans
  task : s.task.InRange

private theorem readingsIn_map {range : Set F64} {entries : List Entry}
    (h : ∀ e ∈ entries, e.val ∈ range) : ReadingsIn range (entries.map Entry.reading) := by
  intro x hx
  obtain ⟨e, he, rfl⟩ := List.mem_map.mp hx
  exact h e he

private theorem ReadingsIn.median {low high : F64} {readings : List (UInt64 × F64)}
    (h : ReadingsIn (Set.Icc low high) readings) (hzero : 0 ∈ Set.Icc low high) :
    (robustMedian (readings.map Prod.snd)).getD 0 ∈ Set.Icc low high := by
  by_cases hne : readings = []
  · rw [hne]
    exact hzero
  · have hvalues : ∀ v ∈ readings.map Prod.snd, low ≤ v ∧ v ≤ high := by
      intro v hv
      obtain ⟨x, hx, rfl⟩ := List.mem_map.mp hv
      exact h x hx
    obtain ⟨m, hm, hbetween⟩ := robustMedian_between (by simpa using hne) hvalues
    rw [hm]
    exact hbetween

private theorem fromSeries_inRange (id : UInt32) (weight : F64)
    {offsets delays jits : List (UInt64 × F64)}
    (hoffsets : ReadingsIn spans offsets) (hdelays : ReadingsIn spans delays)
    (hjitters : ReadingsIn jitters jits) :
    (PeerSample.fromSeries id weight offsets delays jits).InRange := by
  refine ⟨hoffsets.median zero_mem_spans, hdelays.median zero_mem_spans, ?_⟩
  have hmedian := hjitters.median zero_mem_jitters
  change |_| ∈ jitters
  rw [abs_of_nonneg hmedian.1]
  exact hmedian

structure Fused.InRange (f : Fused) : Prop where
  offset : f.stats.meanOffsetNs ∈ spans
  delay : f.stats.meanDelayNs ∈ spans
  weight : 0 < f.stats.totalWeight
  smoothed : f.smoothed ∈ spans

private theorem fuseSamples_inRange {filter : FilterCfg} {ewma ewma' : WeightedEwma}
    {samples : List PeerSample} {out : Option Fused}
    (h : fuseSamples filter ewma samples = some (out, ewma'))
    (hewma : ewma.init = true → ewma.state ∈ spans) (hsamples : ∀ s ∈ samples, s.InRange) :
    (∀ f ∈ out, f.InRange) ∧ (ewma'.init = true → ewma'.state ∈ spans) := by
  rcases fuseSamples_cases h with ⟨_, rfl, rfl⟩ | ⟨stats, _, hstats, rfl, rfl⟩
  · exact ⟨by simp, hewma⟩
  · obtain ⟨hkept, hsub, hoffset, hdelay⟩ := TrimmedStats.fromSamples_kept hstats
    have hkeptIn : ∀ s ∈ stats.kept, s.InRange := fun s hs =>
      hsamples s (mem_of_mem_selectBestPeers (hsub s hs))
    have hmean : stats.meanOffsetNs ∈ spans := by
      rw [hoffset]
      exact keptMean_between hkept fun s hs => (hkeptIn s hs).offset
    have hmeanDelay : stats.meanDelayNs ∈ spans := by
      rw [hdelay]
      exact keptMean_between hkept fun s hs => (hkeptIn s hs).delay
    obtain ⟨hsmoothed, _, hstate⟩ :=
      @WeightedEwma.push_between _ _ ewma stats.meanOffsetNs stats.totalWeight hewma hmean
    have hweight : 0 < stats.totalWeight := by
      rw [fromSamples_totalWeight hstats]
      exact lt_max_of_lt_right (by norm_num [F64_EPSILON])
    refine ⟨?_, fun _ => ?_⟩
    · intro f hf
      obtain rfl := Option.some.inj hf
      exact ⟨hmean, hmeanDelay, hweight, hsmoothed⟩
    · rw [hstate]
      exact hsmoothed

private theorem sampleSummary_inRange {s : PeerSample} (h : s.InRange) :
    (sampleSummary cfg s).InRange := by
  have hscore : peerScore s ∈ fieldRange "score" := by
    rw [peerScore, abs_of_nonneg h.jitter.1]
    exact score_between h.delay h.jitter
  simp only [sampleSummary, Effect.InRange, fieldsInRange_cons, fieldsInRange_nil, and_true]
  exact ⟨h.offset, h.delay, h.jitter, hscore⟩

private theorem publishEffects_inRange {ts : UInt64} {f : Fused} {ring : Ring}
    {samples : List PeerSample} (hf : f.InRange) (hsamples : ∀ s ∈ samples, s.InRange) :
    ∀ e ∈ publishEffects cfg ts f ring samples, e.InRange := by
  have hdrift : ∀ e ∈ driftEffects cfg ts f.smoothed ring, e.InRange := by
    unfold driftEffects
    split
    · refine List.forall_mem_cons.mpr ⟨trivial, ?_⟩
      split
      · exact fun e he => List.mem_singleton.mp he ▸ hf.smoothed
      · simp
    · simp
  have hsummary : (fusedSummary f).InRange := by
    simp only [fusedSummary, Effect.InRange, fieldsInRange_cons, fieldsInRange_nil, and_true]
    exact ⟨hf.smoothed, hf.offset, hf.delay, hf.weight⟩
  intro e he
  simp only [publishEffects, fusedEffects, reportEffects, List.mem_append, List.mem_cons,
    List.not_mem_nil, or_false, List.mem_map] at he
  rcases he with ((rfl | rfl | rfl) | he) | rfl | (⟨s, hs, rfl⟩ | rfl) | he
  · exact hf.offset
  · exact hf.delay
  · exact hf.smoothed
  · exact hdrift e he
  · exact hf.smoothed
  · exact sampleSummary_inRange (hsamples s hs)
  · exact hsummary
  · split at he
    · obtain rfl := List.mem_singleton.mp he
      simp only [Effect.InRange, fieldsInRange_cons, fieldsInRange_nil, and_true]
      exact hf.smoothed
    · contradiction

private theorem phcEffects_inRange (ts : UInt64) {c c' : Clocks} {smoothed : F64} {offset : Int}
    (hclock : phcSystemOffset cfg.phcDevice c c' = some (some offset))
    (hsmoothed : smoothed ∈ spans) : ∀ e ∈ phcEffects cfg ts smoothed offset, e.InRange := by
  have hoffset : (offset : F64) ∈ spans := by
    unfold phcSystemOffset at hclock
    split at hclock
    · contradiction
    · simp at hclock
    · rename_i phc hphc
      obtain ⟨system, _, hdiff⟩ := Option.map_eq_some_iff.mp hclock
      obtain rfl := Option.some.inj hdiff
      have hlow := phc.toNat_lt
      have hhigh := system.toNat_lt
      apply intCast_mem_spans <;> omega
  intro e he
  rcases List.mem_pair.mp he with rfl | rfl
  · exact hoffset
  · exact sub_mem_gaps hsmoothed hoffset

private theorem source_range {src : Source} (hsrc : src ∈ sources cfg) :
    src.offsetKey.range = spans ∧ src.delayKey.range = spans ∧ src.jitterKey.range = jitters := by
  rcases List.mem_append.mp hsrc with hsrc | hsrc
  · obtain ⟨p, _, rfl⟩ := List.mem_map.mp hsrc
    exact ⟨rfl, rfl, rfl⟩
  · obtain ⟨n, _, rfl⟩ := List.mem_map.mp hsrc
    exact ⟨rfl, rfl, rfl⟩

private theorem afterEffects_inRange {rest : List Effect} (h : ∀ e ∈ rest, e.InRange) :
    (afterEffects rest).InRange := by
  cases rest with
  | nil => trivial
  | cons e rest => exact h

/-- What the loop stores and gives to the kernel is in range. -/
def FusionEvent.InRange : FusionEvent → Prop
  | .fused _ => True
  | .tsAdd w => w.val ∈ w.key.range
  | .slewed offsetNs _ _ => offsetNs ∈ spans
  | .hmSet x => FieldsInRange x.fields

section FusionTasks

variable {s : FusionState} {since : UInt64} {src : Source} {todo : List Source}
  {samples : List PeerSample} {entries : List Entry}

private theorem FusionState.InRange.offsets (h : s.InRange cfg)
    (htask : s.task = .collecting since (src :: todo) samples)
    (hreply : ∀ e ∈ entries, e.val ∈ src.offsetKey.range) :
    (FusionTask.delays since src (entries.map Entry.reading) todo samples).InRange := by
  obtain ⟨hahead, _, hsamples⟩ := h
  rw [htask] at hahead hsamples
  have hread := readingsIn_map hreply
  rw [(source_range (hahead.subset List.mem_cons_self)).1] at hread
  exact ⟨hread, hsamples⟩

private theorem FusionState.InRange.delays {offsets : List (UInt64 × F64)} (h : s.InRange cfg)
    (htask : s.task = .delays since src offsets todo samples)
    (hreply : ∀ e ∈ entries, e.val ∈ src.delayKey.range) :
    (FusionTask.jitters since src offsets (entries.map Entry.reading) todo samples).InRange := by
  obtain ⟨hahead, _, hread'⟩ := h
  rw [htask] at hahead hread'
  have hread := readingsIn_map hreply
  rw [(source_range (hahead.subset List.mem_cons_self)).2.1] at hread
  exact ⟨hread'.1, hread, hread'.2⟩

private theorem FusionState.InRange.jitters {offsets delays : List (UInt64 × F64)}
    (h : s.InRange cfg) (htask : s.task = .jitters since src offsets delays todo samples)
    (hreply : ∀ e ∈ entries, e.val ∈ src.jitterKey.range) :
    (FusionTask.collecting since todo (samples ++ [.fromSeries src.id src.weight offsets delays
      (entries.map Entry.reading)])).InRange := by
  obtain ⟨hahead, _, hread'⟩ := h
  rw [htask] at hahead hread'
  obtain ⟨hoffsets, hdelays, hsamples⟩ := hread'
  have hread := readingsIn_map hreply
  rw [(source_range (hahead.subset List.mem_cons_self)).2.2] at hread
  exact List.forall_mem_append.mpr
    ⟨hsamples, List.forall_mem_singleton.mpr (fromSeries_inRange _ _ hoffsets hdelays hread)⟩

end FusionTasks

private theorem FusionStep.inRange {s s' : FusionState} {a : FusionAction} {es : List FusionEvent}
    (hstep : FusionStep cfg s a s' es) (h : s.InRange cfg)
    (hreply : ∀ key since limit entries, a = .recent key since limit (some entries) →
      ∀ e ∈ entries, e.val ∈ key.range) :
    s'.InRange cfg ∧ ∀ e ∈ es, e.InRange := by
  have htask' := h.task
  have hahead := hstep.ahead h.ahead
  cases hstep with
  | skip => exact ⟨h, by simp⟩
  | tick => exact ⟨⟨hahead, h.ewma, by simp [FusionTask.InRange]⟩, by simp⟩
  | failed
  | panic
  | phcFailed => exact ⟨⟨hahead, h.ewma, trivial⟩, by simp⟩
  | sparse htask =>
    rw [htask] at htask'
    exact ⟨⟨hahead, h.ewma, htask'⟩, by simp⟩
  | enough htask => exact ⟨⟨hahead, h.ewma, h.offsets htask (hreply _ _ _ _ rfl)⟩, by simp⟩
  | delays entries htask =>
    exact ⟨⟨hahead, h.ewma, h.delays htask (hreply _ _ _ _ rfl)⟩, by simp⟩
  | jitters entries htask =>
    exact ⟨⟨hahead, h.ewma, h.jitters htask (hreply _ _ _ _ rfl)⟩, by simp⟩
  | nothing ts htask hfuse =>
    rw [htask] at htask'
    have hewma := (fuseSamples_inRange hfuse h.ewma htask').2
    exact ⟨⟨hahead, hewma, trivial⟩, by simp⟩
  | @fuse since samples ewma f ts htask hfuse =>
    rw [htask] at htask'
    obtain ⟨hf, hewma⟩ := fuseSamples_inRange hfuse h.ewma htask'
    exact ⟨⟨hahead, hewma, publishEffects_inRange (hf f rfl) htask'⟩,
      by simp [FusionEvent.InRange]⟩
  | tsAdd htask
  | slew htask
  | hmSet htask =>
    rw [htask] at htask'
    obtain ⟨hout, hrest⟩ := List.forall_mem_cons.mp htask'
    exact ⟨⟨hahead, h.ewma, afterEffects_inRange hrest⟩, List.forall_mem_singleton.mpr hout⟩
  | phcAbsent htask =>
    rw [htask] at htask'
    have hrest := (List.forall_mem_cons.mp htask').2
    exact ⟨⟨hahead, h.ewma, afterEffects_inRange hrest⟩, by simp⟩
  | @phcRead _ _ ts _ _ _ htask hclock =>
    rw [htask] at htask'
    obtain ⟨hsmoothed, hrest⟩ := List.forall_mem_cons.mp htask'
    have hclocks := phcEffects_inRange ts hclock hsmoothed
    exact ⟨⟨hahead, h.ewma, List.forall_mem_append.mpr ⟨hclocks, hrest⟩⟩, by simp⟩

/-! ## All nodes -/

/-- Each part is in range. -/
def Part.InRange (cfg : Config) : (i : PartOf cfg) → i.State → Prop
  | .node, s => NodeState.InRange s
  | .fusion, s => FusionState.InRange cfg s
  | .poller _, s => Comparing.InRange s
  | .handler _, _ => True

/-- What a part stores is in range, and so is an offset that it hands to the kernel. -/
def Part.OffersInRange {n : Nat} : (i : Part n) → i.Event → Prop
  | .fusion, .slewed offset _ _ => offset ∈ spans
  | i, e => ∀ w, i.write? e = some w → w.InRange

private theorem Part.OffersInRange.write {n : Nat} {i : Part n} {e : i.Event}
    (h : i.OffersInRange e) {w : StoreWrite} (hw : i.write? e = some w) : w.InRange := by
  cases i with
  | fusion =>
    cases e with
    | slewed => contradiction
    | _ => exact h w hw
  | _ => exact h w hw

private theorem part_inRange {i : PartOf cfg} {s s' : i.State} {a : i.Action} {es : List i.Event}
    (h : i.InRange cfg s) (hread : ∀ r, i.read? a = some r → r.InRange)
    (hstep : (i.machine parse cfg).step s a = some (s', es)) :
    i.InRange cfg s' ∧ ∀ e ∈ es, i.OffersInRange e := by
  cases i with
  | node =>
    obtain ⟨hnext, hwrites⟩ := (NodeStep.of_step hstep).inRange h
    refine ⟨hnext, ?_⟩
    intro e he w hw
    cases e with
    | tsAdd v c =>
      obtain rfl := Option.some.inj hw
      exact hwrites v c he
    | _ => contradiction
  | fusion =>
    have hreply : ∀ key since limit entries, a = .recent key since limit (some entries) →
        ∀ e ∈ entries, e.val ∈ key.range := by
      rintro key since limit entries rfl
      exact hread _ rfl
    obtain ⟨hnext, hevents⟩ := (FusionStep.of_step hstep).inRange h hreply
    refine ⟨hnext, ?_⟩
    intro e he
    cases e with
    | slewed => exact hevents _ he
    | fused f => simp [Part.OffersInRange, Part.write?]
    | tsAdd
    | hmSet =>
      intro w hw
      obtain rfl := Option.some.inj hw
      exact hevents _ he
  | poller k =>
    have hreply : ∀ key fields, a = .getAll key (some fields) → FieldsInRange fields := by
      rintro key fields rfl
      exact hread _ rfl
    obtain ⟨hnext, hevents⟩ := comparing_inRange hstep h hreply
    refine ⟨hnext, ?_⟩
    intro e he w hw
    cases e with
    | tsAdd
    | hmSet =>
      obtain rfl := Option.some.inj hw
      exact hevents _ he
    | _ => contradiction
  | handler k =>
    refine ⟨trivial, ?_⟩
    intro e _ w hw
    cases e <;> contradiction

section Nodes

variable {N : Type} [DecidableEq N] {cfgs : N → Config}

/-- All who use the store keep to its ranges. -/
def rangeContract (parse : String → UInt16 → Option SocketAddr) (cfgs : N → Config) :
    Contract (nodes parse cfgs) where
  holds := Shared.InRange
  keeps i s := i.2.InRange (cfgs i.1) s
  relies i a := ∀ r, i.2.read? a = some r → r.InRange
  offers i e := i.2.OffersInRange e
  agreed d := ∀ w, d = .write w → w.InRange
  answers h hallow r hr := by
    change ((_ : Option StoreRead).all _) = true at hallow
    rw [hr] at hallow
    exact h.answers hallow
  acts h hread hstep := part_inRange h hread hstep
  absorbs h hoffers := by
    apply h.writes
    intro w hw
    obtain ⟨e, he, hwrite⟩ := List.mem_filterMap.mp hw
    exact (hoffers e he).write hwrite
  drifts h hd hdrift := h.drift hd hdrift

private theorem init_inRange (i : PartOf cfg) : i.InRange cfg (i.init cfg) := by
  cases i with
  | node =>
    refine ⟨?_, ?_, trivial⟩
    · intro seq req hsome
      simp [Part.init] at hsome
    · intro id entry hsome
      simp [Part.init] at hsome
  | fusion => exact ⟨List.nil_suffix, fun hinit => Bool.noConfusion hinit, trivial⟩
  | poller k => exact ⟨⟨by simp [Part.init], by simp [Part.init], trivial⟩, by simp [Part.init]⟩
  | handler k => trivial

/-- As long as others write what the series and summaries are for, every run of nodes around a
store leaves every number of it in its range, and with it every offset that the kernel is given. -/
theorem store_in_range {m : Shared} {ts : List (NodesTurn cfgs)} {s : NodesState cfgs}
    (hrun : (nodes parse cfgs).toMachine.Run (Nodes.init cfgs m) ts s) (hstart : m.InRange)
    (houtside : ∀ t ∈ ts, ∀ w, t.action = .drift (.write w) → w.InRange) :
    s.medium.InRange ∧
      (∀ i e w, ⟨i, e⟩ ∈ events ts → i.2.write? e = some w → w.InRange) ∧
      ∀ x offset drift command,
        ⟨⟨x, .fusion⟩, .slewed offset drift command⟩ ∈ events ts → offset ∈ spans := by
  have hkept : (rangeContract parse cfgs).Kept (Nodes.init cfgs m) :=
    ⟨hstart, fun i => init_inRange i.2⟩
  have hagreed : ∀ t ∈ ts, (rangeContract parse cfgs).Agreed t := by
    rintro t ht d hd w rfl
    exact houtside t ht w hd
  obtain ⟨hafter, hoffers⟩ := hkept.run hrun hagreed
  refine ⟨hafter.medium, ?_, ?_⟩
  · intro i e w he hw
    exact (hoffers _ he).write hw
  · intro x offset drift command hslewed
    exact hoffers _ hslewed

end Nodes

/-- A poll of one server, with what it stores. -/
theorem store_in_range_polled :
    ((soloNode pollConfig).toMachine.stateAfter (Nodes.init _ emptyShared)
        unpingedMoves).medium.InRange ∧
      ((soloNode pollConfig).toMachine.stateAfter (Nodes.init _ emptyShared)
        unpingedMoves).medium.series (.ntp 11 .jitter) ≠ [] := by
  have hempty : emptyShared.InRange :=
    ⟨fun _ _ he => absurd he List.not_mem_nil, by simp [emptyShared]⟩
  refine ⟨(store_in_range (Run.of_actions unpinged_ending.exec) hempty ?_).1, by decide +kernel⟩
  intro t ht w hw
  have hmove := List.all_eq_true.mp unpinged_ending.answered _ (action_mem_of_turnsOf ht)
  rw [hw] at hmove
  contradiction

end Zeitpeer
