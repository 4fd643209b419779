import Zeitpeer.Net.Site

/-!
# What an iteration is about to publish

While an iteration publishes, the store is on its way to what the remaining effects lead to: the
fused series with their new entries, and the summary of the fused values. The hardware clock is
read after the series and before the summaries.
-/

namespace Zeitpeer

open Framework

variable {cfg : Config}

/-- The keys under which fused values are published. -/
inductive FusedKey : StoreKey → Prop where
  | series (metric : FusedMetric) : FusedKey (.series (.fused metric))
  | summary : FusedKey (.hash .fusedSummary)

def Effect.write? : Effect → Option StoreWrite
  | .tsAdd w => some (.tsAdd w)
  | .hmSet h => some (.hmSet h)
  | _ => none

/-- The store once the remaining effects are out. -/
def settled (m : Shared) (effects : List Effect) : Shared :=
  (effects.filterMap Effect.write?).foldl Shared.write m

@[simp] theorem settled_nil (m : Shared) : settled m [] = m := rfl

private theorem FusionTask.effects_of_reads {task : FusionTask} {read : SeriesKey × UInt64}
    (hreads : task.reads = some read) : task.effects = [] := by
  cases task with
  | publishing => contradiction
  | _ => rfl

theorem settled_congr {m m' : Shared} (effects : List Effect) {key : StoreKey}
    (hsame : m.get key = m'.get key) : (settled m effects).get key = (settled m' effects).get key :=
  get_writes _ hsame

/-- The store after what the loop has emitted in a step. -/
def stored (cfg : Config) (m : Shared) (es : List FusionEvent) : Shared :=
  (Part.writes (.fusion : PartOf cfg) es).foldl Shared.write m

/-- A step that publishes does not change what the remaining effects lead to; the hardware clock
adds what goes to other series. -/
theorem FusionStep.settles {s s' : FusionState} {a : FusionAction} {es : List FusionEvent}
    (hstep : FusionStep cfg s a s' es) (hfuse : ∀ ts, a ≠ .fuse ts)
    (hclock : ∀ c c', a = .phcOffset c c' → phcSystemOffset cfg.phcDevice c c' ≠ none)
    (m : Shared) {key : StoreKey} (hkey : FusedKey key) :
    (settled (stored cfg m es) s'.task.effects).get key = (settled m s.task.effects).get key := by
  cases hstep with
  | skip => rfl
  | tick now hidle => rw [hidle]; rfl
  | failed hreads => rw [FusionTask.effects_of_reads hreads]; rfl
  | sparse htask
  | enough htask
  | delays entries htask
  | jitters entries htask => rw [htask]; rfl
  | panic ts
  | nothing ts
  | fuse ts => exact absurd rfl (hfuse ts)
  | tsAdd htask
  | slew htask
  | hmSet htask
  | phcAbsent htask =>
    rw [htask, effects_afterEffects]
    rfl
  | phcFailed htask hread => exact absurd hread (hclock _ _ rfl)
  | phcRead htask =>
    rw [htask]
    change (settled (settled m (phcEffects cfg _ _ _)) _).get key = (settled m _).get key
    apply settled_congr
    apply get_writes_of_ne
    intro w hw
    simp only [phcEffects, List.filterMap_cons, Effect.write?, List.filterMap_nil,
      List.mem_cons, List.not_mem_nil, or_false] at hw
    rcases hw with rfl | rfl <;> cases hkey <;> simp [StoreWrite.key]

/-- The writes of effects under a key. -/
def writesUnder (key : StoreKey) (effects : List Effect) : List StoreWrite :=
  (effects.filterMap Effect.write?).filter fun w => w.key = key

private theorem settled_get (m : Shared) (effects : List Effect) (key : StoreKey) :
    (settled m effects).get key = ((writesUnder key effects).foldl Shared.write m).get key :=
  get_writes_filter m _ key

private theorem writesUnder_append (key : StoreKey) (xs ys : List Effect) :
    writesUnder key (xs ++ ys) = writesUnder key xs ++ writesUnder key ys := by
  simp [writesUnder]

private theorem writesUnder_eq_nil {key : StoreKey} {effects : List Effect}
    (h : ∀ e ∈ effects, ∀ w, e.write? = some w → w.key ≠ key) : writesUnder key effects = [] := by
  rw [writesUnder, List.filter_eq_nil_iff]
  intro w hw
  obtain ⟨e, he, hwrite⟩ := List.mem_filterMap.mp hw
  simpa using h e he w hwrite

private theorem summaryKey_ne (cfg : Config) (id : UInt32) : summaryKey cfg id ≠ .fusedSummary := by
  rw [summaryKey]
  split
  · simp
  · split <;> simp

section Publish

variable (cfg) (ts : UInt64) (f : Fused) (ring : Ring) (samples : List PeerSample)

private theorem writesUnder_driftEffects (smoothed : F64) {key : StoreKey}
    (hkey : key ≠ .series (.fused .driftPpm)) :
    writesUnder key (driftEffects cfg ts smoothed ring) = [] := by
  apply writesUnder_eq_nil
  rw [driftEffects]
  split
  · split <;> simp [fusedAdd, Effect.write?, StoreWrite.key, Ne.symm hkey]
  · simp

private theorem writesUnder_summaries {key : StoreKey} (hkey : FusedKey key) :
    writesUnder key (samples.map (sampleSummary cfg)) = [] := by
  apply writesUnder_eq_nil
  cases hkey <;> simp [sampleSummary, Effect.write?, StoreWrite.key, summaryKey_ne]

private theorem writesUnder_self {key : StoreKey} (hkey : FusedKey key) :
    writesUnder key (if cfg.peers.any fun p => p.id = cfg.nodeId then
      [.hmSet { key := .peerSelf cfg.nodeId, fields := [("last_ewma_ns", f.smoothed)] }]
    else []) = [] := by
  apply writesUnder_eq_nil
  cases hkey <;> split <;> simp [Effect.write?, StoreWrite.key]

/-- What an iteration is to publish under these keys are its three values and their summary, apart
from the drift. -/
private theorem writesUnder_publishEffects {key : StoreKey} (hkey : FusedKey key)
    (hdrift : key ≠ .series (.fused .driftPpm)) :
    writesUnder key (publishEffects cfg ts f ring samples) =
      writesUnder key [fusedAdd cfg .offset ts f.stats.meanOffsetNs,
        fusedAdd cfg .delay ts f.stats.meanDelayNs, fusedAdd cfg .ewma ts f.smoothed,
        fusedSummary f] := by
  have hreport : reportEffects cfg ts f samples = [.phcOffset ts f.smoothed] ++
      (samples.map (sampleSummary cfg) ++ [fusedSummary f] ++
        if cfg.peers.any fun p => p.id = cfg.nodeId then
          [.hmSet { key := .peerSelf cfg.nodeId, fields := [("last_ewma_ns", f.smoothed)] }]
        else []) := rfl
  have hclock : writesUnder key [.phcOffset ts f.smoothed] = [] := rfl
  rw [publishEffects, fusedEffects, hreport]
  simp only [writesUnder_append]
  rw [writesUnder_driftEffects cfg ts ring f.smoothed hdrift, hclock,
    writesUnder_summaries cfg samples hkey, writesUnder_self cfg f hkey]
  simp only [List.append_nil, List.nil_append]
  exact (writesUnder_append key _ [fusedSummary f]).symm

private theorem settled_ewma (m : Shared) :
    (settled m (publishEffects cfg ts f ring samples)).series (.fused .ewma) =
      m.series.tsAdd
        { key := .fused .ewma, tsNs := ts, val := f.smoothed, windowNs := cfg.windowNs }
        (.fused .ewma) := by
  apply Contents.series.inj
  change (settled m _).get (.series (.fused .ewma)) = _
  rw [settled_get, writesUnder_publishEffects cfg ts f ring samples (.series .ewma) (by simp)]
  rfl

private theorem settled_smoothed (m : Shared) :
    ((settled m (publishEffects cfg ts f ring samples)).hashes .fusedSummary).lookup
      "smoothed_offset_ns" = some f.smoothed := by
  have hfields : (settled m (publishEffects cfg ts f ring samples)).hashes .fusedSummary =
      [("smoothed_offset_ns", f.smoothed), ("raw_offset_ns", f.stats.meanOffsetNs),
        ("mean_delay_ns", f.stats.meanDelayNs), ("weight_sum", f.stats.totalWeight)].foldl setField
        (m.hashes .fusedSummary) := by
    apply Contents.hash.inj
    change (settled m _).get (.hash .fusedSummary) = _
    rw [settled_get, writesUnder_publishEffects cfg ts f ring samples .summary (by simp)]
    rfl
  rw [hfields]
  simp [lookup_setField]

end Publish

/-- The summary has the value that the newest entry of the average has. -/
def Consistent (m : Shared) : Prop :=
  ∀ reply, IsLast (m.series (.fused .ewma)) reply →
    (m.hashes .fusedSummary).lookup "smoothed_offset_ns" = reply.map Entry.val

theorem Consistent.congr {m m' : Shared} (h : Consistent m)
    (hsame : ∀ key, FusedKey key → m'.get key = m.get key) : Consistent m' := by
  have hseries : m'.series (.fused .ewma) = m.series (.fused .ewma) :=
    Contents.series.inj (hsame _ (.series .ewma))
  have hfields : m'.hashes .fusedSummary = m.hashes .fusedSummary :=
    Contents.hash.inj (hsame _ .summary)
  intro reply hlast
  rw [hseries] at hlast
  rw [hfields]
  exact h reply hlast

/-- The stamp is above all of the average's, and in its own window. -/
structure NewStamp (cfg : Config) (m : Shared) (stamp : UInt64) : Prop where
  newest : ∀ e ∈ m.series (.fused .ewma), e.score < roundToF64 stamp.toNat
  in_window : 0 < cfg.windowNs →
    roundToF64 (saturatingSub stamp cfg.windowNs).toNat < roundToF64 stamp.toNat

section NewStamp

variable {m : Shared} {stamp : UInt64}

theorem NewStamp.mem (h : NewStamp cfg m stamp) (f : Fused) (ring : Ring)
    (samples : List PeerSample) : ⟨roundToF64 stamp.toNat, f.smoothed⟩ ∈
      (settled m (publishEffects cfg stamp f ring samples)).series (.fused .ewma) := by
  rw [settled_ewma, Store.tsAdd, Function.update_self]
  split
  · rename_i hwindow
    apply List.mem_filter.mpr
    exact ⟨by simp, decide_eq_true (h.in_window hwindow)⟩
  · simp

/-- Publishing leads to a summary of the newest value. -/
theorem NewStamp.consistent (h : NewStamp cfg m stamp) (f : Fused) (ring : Ring)
    (samples : List PeerSample) :
    Consistent (settled m (publishEffects cfg stamp f ring samples)) := by
  intro reply hlast
  have hmem := h.mem f ring samples
  rw [settled_smoothed]
  cases reply with
  | none =>
    have hnil : (settled m (publishEffects cfg stamp f ring samples)).series (.fused .ewma) = [] :=
      hlast
    rw [hnil] at hmem
    contradiction
  | some e =>
    obtain ⟨he, htop⟩ := hlast
    have hscore := htop _ hmem
    rw [settled_ewma] at he
    rcases mem_tsAdd he with hold | ⟨_, rfl⟩
    · exact absurd hscore (Nat.not_le.mpr (h.newest e hold))
    · rfl

end NewStamp

/-- After the hardware clock nothing goes to the average, and summaries come after it. -/
def Effect.Before : Effect → Effect → Prop
  | .hmSet _, .phcOffset _ _ => False
  | .phcOffset _ _, .phcOffset _ _ => False
  | .phcOffset _ _, .tsAdd w => w.key ≠ .fused .ewma
  | _, _ => True

def Effect.isSummary : Effect → Bool
  | .hmSet _ => true
  | _ => false

def Effect.isPhcOffset : Effect → Bool
  | .phcOffset _ _ => true
  | _ => false

theorem before_of_early {e : Effect} (hsummary : e.isSummary = false)
    (hphc : e.isPhcOffset = false) (e' : Effect) : e.Before e' := by
  cases e with
  | tsAdd w => cases e' <;> trivial
  | slew offset drift => cases e' <;> trivial
  | hmSet h => contradiction
  | phcOffset ts smoothed => contradiction

private theorem before_of_summary (e : Effect) {e' : Effect} (hsummary : e'.isSummary = true) :
    e.Before e' := by
  cases e' with
  | hmSet h => cases e <;> trivial
  | _ => contradiction

private theorem fusedEffects_early (ts : UInt64) (f : Fused) (ring : Ring) :
    ∀ e ∈ fusedEffects cfg ts f ring, e.isSummary = false ∧ e.isPhcOffset = false := by
  rw [fusedEffects, driftEffects]
  split
  · split <;> simp [fusedAdd, Effect.isSummary, Effect.isPhcOffset]
  · simp [fusedAdd, Effect.isSummary, Effect.isPhcOffset]

theorem publishEffects_order (ts : UInt64) (f : Fused) (ring : Ring) (samples : List PeerSample) :
    (publishEffects cfg ts f ring samples).Pairwise Effect.Before := by
  have hsummaries : ∀ e ∈ samples.map (sampleSummary cfg) ++ [fusedSummary f] ++
      (if cfg.peers.any fun p => p.id = cfg.nodeId then
        [.hmSet { key := .peerSelf cfg.nodeId, fields := [("last_ewma_ns", f.smoothed)] }]
      else []), e.isSummary = true := by
    intro e he
    simp only [List.mem_append, List.mem_map, List.mem_singleton] at he
    rcases he with (⟨x, _, rfl⟩ | rfl) | he
    · rfl
    · rfl
    · split at he
      · rw [List.mem_singleton.mp he]
        rfl
      · contradiction
  rw [publishEffects, List.pairwise_append]
  refine ⟨?_, ?_, ?_⟩
  · apply List.pairwise_of_forall_mem_list
    intro e he e' _
    obtain ⟨hsummary, hphc⟩ := fusedEffects_early ts f ring e he
    exact before_of_early hsummary hphc e'
  · rw [reportEffects, List.pairwise_cons]
    constructor
    · intro e he
      exact before_of_summary _ (hsummaries e he)
    · apply List.pairwise_of_forall_mem_list
      intro e _ e' he'
      exact before_of_summary e (hsummaries e' he')
  · intro e he e' _
    obtain ⟨hsummary, hphc⟩ := fusedEffects_early ts f ring e he
    exact before_of_early hsummary hphc e'

/-- Once the hardware clock is next, the average has what it gets. -/
theorem settled_phcOffset {m : Shared} {ts : UInt64} {smoothed : F64} {rest : List Effect}
    (horder : (Effect.phcOffset ts smoothed :: rest).Pairwise Effect.Before) :
    (settled m (.phcOffset ts smoothed :: rest)).get (.series (.fused .ewma)) =
      m.get (.series (.fused .ewma)) := by
  rw [settled_get, writesUnder_eq_nil]
  · rfl
  · intro e he w hw
    rcases List.mem_cons.mp he with rfl | he
    · contradiction
    · have hbefore := List.rel_of_pairwise_cons horder he
      cases e with
      | tsAdd w' =>
        obtain rfl := Option.some.inj hw
        intro hkey
        exact hbefore (StoreKey.series.inj hkey)
      | hmSet h =>
        obtain rfl := Option.some.inj hw
        simp [StoreWrite.key]
      | _ => contradiction

end Zeitpeer
