import Zeitpeer.Net.Site

/-!
# What the summary of a server holds

A poller sets the summary at the end of each poll, with the fields that every poll has and those
that this one has found. The fusion loop sets four fields of it, from the samples of an iteration.
Nothing else writes it, and a field keeps its value until it is set again.
-/

namespace Zeitpeer

open Framework Machine Ensemble

/-- A field that only some polls have. -/
inductive Finding where
  | offsetVsMean
  | pingMs
  deriving DecidableEq, Repr

def Finding.field : Finding → String
  | .offsetVsMean => "offset_vs_mean_ns"
  | .pingMs => "ping_ms"

/-- What the current poll has measured, and the results of its comparison and of its ping. -/
structure Findings where
  measured : Option Measured := none
  offsetVsMean : Option F64 := none
  pingMs : Option F64 := none
  deriving DecidableEq, Repr

def Findings.get (o : Findings) : Finding → Option F64
  | .offsetVsMean => o.offsetVsMean
  | .pingMs => o.pingMs

def resultField (x : Finding) (result : Option F64) : List (String × F64) :=
  (result.map fun val => (x.field, val)).toList

def Findings.fields (o : Findings) : List (String × F64) :=
  resultField .offsetVsMean o.offsetVsMean ++ resultField .pingMs o.pingMs

def PollerTask.measured? : PollerTask → Option Measured
  | .storing m _ _ => some m
  | _ => none

/-- The findings after a turn; a poll starts with none. -/
def Findings.after (o : Findings) (t : PollerTurn) : Findings :=
  match t.action with
  | .request _ => {}
  | .receive _ _ => { measured := t.after.task.measured? }
  | .compare others =>
    { o with offsetVsMean := t.before.task.measured?.bind fun m => Zeitpeer.offsetVsMean m others }
  | .ping ms => { o with pingMs := ms }
  | _ => o

def findings (ts : List PollerTurn) : Findings := ts.foldl Findings.after {}

theorem findings_concat (ts : List PollerTurn) (t : PollerTurn) :
    findings (ts ++ [t]) = (findings ts).after t := List.foldl_concat ..

/-- What is still to be done in a poll, and the fields that it has gathered. -/
inductive PollGathered (src : NtpSource) (m : Measured) (o : Findings) :
    List PollerEffect → List (String × F64) → Prop where
  | measured (hmean : o.offsetVsMean = none) (hping : o.pingMs = none) :
      PollGathered src m o [.systemNow, .compare, .ping, .hmSet] []
  | dated (c : Clocks) (hmean : o.offsetVsMean = none) (hping : o.pingMs = none) :
      PollGathered src m o [.compare, .ping, .hmSet] (summaryFields src m c)
  | compared (c : Clocks) (hping : o.pingMs = none) :
      PollGathered src m o [.ping, .hmSet]
        (summaryFields src m c ++ resultField .offsetVsMean o.offsetVsMean)
  | complete (c : Clocks) : PollGathered src m o [.hmSet] (summaryFields src m c ++ o.fields)
  | tsAdd (w : TsAdd) {todo : List PollerEffect} {fields : List (String × F64)}
      (h : PollGathered src m o todo fields) : PollGathered src m o (.tsAdd w :: todo) fields

def PollProgress (src : NtpSource) (o : Findings) : PollerTask → Prop
  | .storing m todo fields => o.measured = some m ∧ PollGathered src m o todo fields
  | _ => True

/-- The summary at the end of a poll. -/
def pollSummary (src : NtpSource) (m : Measured) (c : Clocks) (o : Findings) : HmSet :=
  { key := .ntpSummary src.id, fields := summaryFields src m c ++ o.fields }

variable {cfg : Config} {src : NtpSource}

private theorem PollGathered.withResult {m : Measured} {o : Findings} {todo : List PollerEffect}
    {fields : List (String × F64)} {metric : NtpMetric} {x : Finding} {result : Option F64}
    (h : PollGathered src m o todo (fields ++ resultField x result))
    (hmeasured : o.measured = some m) :
    PollProgress src o (withResult cfg src m metric x.field result todo fields) := by
  cases result with
  | none =>
    rw [resultField, Option.map_none, Option.toList_none, List.append_nil] at h
    exact ⟨hmeasured, h⟩
  | some val => exact ⟨hmeasured, .tsAdd _ h⟩

private theorem PollerStep.gathers {o : Findings} {s s' : PollerState} {a : PollerAction}
    {es : List PollerEvent} (hstep : PollerStep cfg src s a s' es)
    (h : PollProgress src o s.task) :
    PollProgress src (o.after ⟨s, a, es, s'⟩) s'.task ∧
      ∀ x, .hmSet x ∈ es → ∃ m c, o.measured = some m ∧ x = pollSummary src m c o := by
  cases hstep with
  | unread c htask => exact ⟨by rw [htask]; trivial, by simp⟩
  | skipped => exact ⟨h, by simp⟩
  | request
  | lost
  | rejected => exact ⟨trivial, by simp⟩
  | sampled =>
    refine ⟨⟨rfl, ?_⟩, by simp⟩
    exact .tsAdd _ (.tsAdd _ (.tsAdd _ (.tsAdd _ (.tsAdd _ (.measured rfl rfl)))))
  | tsAdd htask =>
    rw [htask] at h
    obtain ⟨hmeasured, hgathered⟩ := h
    cases hgathered with
    | tsAdd _ h => exact ⟨⟨hmeasured, h⟩, by simp⟩
  | hmSet htask =>
    rw [htask] at h
    obtain ⟨hmeasured, hgathered⟩ := h
    refine ⟨trivial, ?_⟩
    intro x hx
    obtain rfl := PollerEvent.hmSet.inj (List.mem_singleton.mp hx)
    cases hgathered with
    | complete c => exact ⟨_, c, hmeasured, rfl⟩
  | systemNow c htask =>
    rw [htask] at h
    obtain ⟨hmeasured, hgathered⟩ := h
    cases hgathered with
    | measured hmean hping =>
      exact ⟨⟨hmeasured, .tsAdd _ (.tsAdd _ (.dated c hmean hping))⟩, by simp⟩
  | @compare others m rest fields htask =>
    rw [htask] at h
    obtain ⟨hmeasured, hgathered⟩ := h
    have hafter : ∀ s', o.after ⟨s, .compare others, [], s'⟩ =
        { o with offsetVsMean := offsetVsMean m others } := by
      intro s'
      simp only [Findings.after, htask, PollerTask.measured?, Option.bind_some]
    rw [hafter]
    cases hgathered with
    | dated c hmean hping =>
      have hcompared : PollGathered src m { o with offsetVsMean := offsetVsMean m others }
          [.ping, .hmSet] _ := .compared c hping
      exact ⟨hcompared.withResult hmeasured, by simp⟩
  | @ping ms m rest fields htask =>
    rw [htask] at h
    obtain ⟨hmeasured, hgathered⟩ := h
    cases hgathered with
    | compared c hping =>
      have hcomplete : PollGathered src m { o with pingMs := ms } [.hmSet] _ := .complete c
      rw [Findings.fields, ← List.append_assoc] at hcomplete
      exact ⟨hcomplete.withResult hmeasured, by simp⟩

theorem run_gathers {ts : List PollerTurn} {s : PollerState}
    (hrun : (poller cfg src).Run {} ts s) : PollProgress src (findings ts) s.task := by
  induction hrun with
  | start => trivial
  | turn _ hstep ih =>
    rw [findings_concat]
    exact ((PollerStep.of_step hstep).gathers ih).1

/-- What the current poll of a server has found. -/
def comparingFindings (ts : List ComparingTurn) : Findings := findings (ts.filterMap ownTurn)

theorem comparing_summary {ts : List ComparingTurn} {t : ComparingTurn} {s : Comparing}
    (hrun : (comparing cfg src).Run {} (ts ++ [t]) s) {h : HmSet} (hemit : .hmSet h ∈ t.emitted) :
    ∃ m c, (comparingFindings ts).measured = some m ∧
      h = pollSummary src m c (comparingFindings ts) := by
  obtain ⟨hbefore, hstep, _⟩ := hrun.last
  obtain ⟨b, p, haction, _, hlocal, _⟩ | ⟨_, _, _, _, _, hquiet, _⟩ := comparing_cases hstep
  · exact ((PollerStep.of_step hlocal).gathers (run_gathers (run_own hbefore).1)).2 h hemit
  · rw [hquiet] at hemit
    contradiction

/-- A summary of the loop is one of a sample that it has collected, or not that of a source. -/
def SummaryOrigin (cfg : Config) (ts : List FusionTurn) (h : HmSet) : Prop :=
  (∃ u ∈ ts, ∃ samples, u.before.task.collected? = some samples ∧
    ∃ x ∈ samples, sampleSummary cfg x = .hmSet h) ∨
    h.key = .fusedSummary ∨ h.key = .peerSelf cfg.nodeId

private theorem SummaryOrigin.mono {ts us : List FusionTurn} {h : HmSet}
    (horigin : SummaryOrigin cfg ts h) : SummaryOrigin cfg (ts ++ us) h := by
  rcases horigin with ⟨u, hu, hsample⟩ | hother
  · exact .inl ⟨u, List.mem_append_left _ hu, hsample⟩
  · exact .inr hother

/-- What the loop has to set are summaries of this kind. -/
def PublishesSummaries (cfg : Config) (ts : List FusionTurn) (task : FusionTask) : Prop :=
  ∀ h, .hmSet h ∈ task.effects → SummaryOrigin cfg ts h

private theorem FusionStep.summaries {ts : List FusionTurn} {s s' : FusionState} {a : FusionAction}
    {es : List FusionEvent} (hstep : FusionStep cfg s a s' es)
    (h : PublishesSummaries cfg ts s.task) :
    PublishesSummaries cfg (ts ++ [⟨s, a, es, s'⟩]) s'.task := by
  intro x hx
  cases hstep.origin hx with
  | pending he => exact (h x he).mono
  | fused ts _ htask he =>
    rcases mem_publishEffects_hmSet he with ⟨sample, hsample, hsummary⟩ | hother
    · exact .inl ⟨_, List.mem_concat_self, _, by rw [htask]; rfl, sample, hsample, hsummary⟩
    · exact .inr hother

theorem run_publishesSummaries {ts : List FusionTurn} {s : FusionState}
    (hrun : (fusion cfg).Run (.init cfg) ts s) : PublishesSummaries cfg ts s.task := by
  induction hrun with
  | start => exact fun h hh => absurd hh List.not_mem_nil
  | turn _ hstep ih => exact (FusionStep.of_step hstep).summaries ih

private theorem fusion_summary {ts : List FusionTurn} {t : FusionTurn} {s : FusionState}
    (hrun : (fusion cfg).Run (.init cfg) (ts ++ [t]) s) {h : HmSet} (hemit : .hmSet h ∈ t.emitted) :
    SummaryOrigin cfg ts h := by
  obtain ⟨hbefore, hstep, _⟩ := hrun.last
  exact run_publishesSummaries hbefore h ((FusionStep.of_step hstep).published.2 h hemit)

section Nodes

variable {N : Type} {cfgs : N → Config}

abbrev serverOf (cfgs : N → Config) (x : N) (k : Fin (cfgs x).ntpSources.length) : NtpSource :=
  (cfgs x).ntpSources.get k

abbrev NodesEvent (cfgs : N → Config) : Type := Sigma fun i : PartIn cfgs => i.2.Event

/-- What an event sets in the summary of a server. -/
def eventSummary (id : UInt32) (e : NodesEvent cfgs) : Option HmSet :=
  (e.1.2.write? e.2).bind fun
    | .hmSet h => if h.key = .ntpSummary id then some h else none
    | .tsAdd _ => none

/-- What has been set in the summary of a server. -/
def summariesOf (id : UInt32) (ts : List (NodesTurn cfgs)) : List HmSet :=
  (events ts).filterMap (eventSummary id)

private theorem eventSummary_eq_some {id : UInt32} {e : NodesEvent cfgs} {h : HmSet}
    (hsum : eventSummary id e = some h) :
    e.1.2.write? e.2 = some (.hmSet h) ∧ h.key = .ntpSummary id := by
  obtain ⟨w, hw, hkey⟩ := Option.bind_eq_some_iff.mp hsum
  cases w with
  | tsAdd w => contradiction
  | hmSet x =>
    obtain ⟨hx, heq⟩ := Option.ite_none_right_eq_some.mp hkey
    obtain rfl := Option.some.inj heq
    exact ⟨hw, hx⟩

/-- Nothing from outside changes the summary. -/
def SummaryKept (id : UInt32) (t : NodesTurn cfgs) : Prop :=
  ∀ d, t.action = .drift d → d.key ≠ .hash (.ntpSummary id)

private theorem hashes_writes (m : Shared) (i : PartIn cfgs) (es : List i.2.Event) (id : UInt32) :
    ((i.2.writes es).foldl Shared.write m).hashes (.ntpSummary id) =
      ((es.map (Sigma.mk i)).filterMap (eventSummary id)).foldl
        (fun fields h => h.fields.foldl setField fields) (m.hashes (.ntpSummary id)) := by
  induction es generalizing m with
  | nil => rfl
  | cons e es ih =>
    rw [Part.writes, List.filterMap_cons, List.map_cons, List.filterMap_cons]
    cases hwrite : i.2.write? e with
    | none =>
      have hnone : eventSummary id (⟨i, e⟩ : NodesEvent cfgs) = none := by
        simp [eventSummary, hwrite]
      rw [hnone]
      exact ih m
    | some w =>
      cases w with
      | tsAdd w =>
        have hnone : eventSummary id (⟨i, e⟩ : NodesEvent cfgs) = none := by
          simp [eventSummary, hwrite]
        rw [hnone]
        exact ih _
      | hmSet h =>
        by_cases hkey : h.key = .ntpSummary id
        · have hsome : eventSummary id (⟨i, e⟩ : NodesEvent cfgs) = some h := by
            simp [eventSummary, hwrite, hkey]
          rw [hsome, List.foldl_cons, List.foldl_cons, ← Part.writes, ih]
          congr 1
          change m.hashes.hmSet h (.ntpSummary id) = _
          rw [Hashes.hmSet, hkey, Function.update_self]
        · have hnone : eventSummary id (⟨i, e⟩ : NodesEvent cfgs) = none := by
            simp [eventSummary, hwrite, hkey]
          rw [hnone, List.foldl_cons, ← Part.writes, ih]
          congr 1
          change m.hashes.hmSet h (.ntpSummary id) = _
          rw [Hashes.hmSet, Function.update_of_ne (Ne.symm hkey)]

variable [DecidableEq N]

/-- What the current poll of a poller has found. -/
def pollFindings (x : N) (k : Fin (cfgs x).ntpSources.length) (ts : List (NodesTurn cfgs)) :
    Findings :=
  comparingFindings (view (Sigma.mk x (.poller k) : PartIn cfgs) ts)

/-- The events that set a summary: the end of a poll, and a sample of an iteration. -/
inductive SummaryWrite (id : UInt32) (ts : List (NodesTurn cfgs)) :
    NodesEvent cfgs → HmSet → Prop where
  | poll (x : N) (k : Fin (cfgs x).ntpSources.length) (hid : (serverOf cfgs x k).id = id)
      (m : Measured) (c : Clocks) (hmeasured : (pollFindings x k ts).measured = some m) :
      SummaryWrite id ts
        ⟨⟨x, .poller k⟩, .hmSet (pollSummary (serverOf cfgs x k) m c (pollFindings x k ts))⟩
        (pollSummary (serverOf cfgs x k) m c (pollFindings x k ts))
  | sample (x : N) (h : HmSet) (hkey : h.key = .ntpSummary id)
      (horigin : ∃ u ∈ view (Sigma.mk x .fusion : PartIn cfgs) ts, ∃ samples,
        u.before.task.collected? = some samples ∧
          ∃ p ∈ samples, sampleSummary (cfgs x) p = .hmSet h) :
      SummaryWrite id ts ⟨⟨x, .fusion⟩, .hmSet h⟩ h

variable {parse : String → UInt16 → Option SocketAddr} {m : Shared} {id : UInt32}
  {ts : List (NodesTurn cfgs)} {t : NodesTurn cfgs} {s : NodesState cfgs}

/-- The history of a part that emits something ends with the turn in which it does. -/
theorem view_concat_of_emitted
    (hrun : (nodes parse cfgs).toMachine.Run (Nodes.init cfgs m) (ts ++ [t]) s) {i : PartIn cfgs}
    {e : i.2.Event} (he : ⟨i, e⟩ ∈ t.emitted) :
    ∃ u, e ∈ u.emitted ∧ (i.2.machine parse (cfgs i.1)).Run (i.2.init (cfgs i.1))
      (view i ts ++ [u]) (s.members i) := by
  obtain ⟨_, hstep, _⟩ := hrun.last
  obtain ⟨u, hu, hemit⟩ := turnOf_of_emitted hstep he
  have hview := run_view hrun i
  have hlast : view i [t] = [u] := List.filterMap_cons_some hu
  rw [view_append, hlast] at hview
  exact ⟨u, hemit, hview⟩

theorem summary_cases
    (hrun : (nodes parse cfgs).toMachine.Run (Nodes.init cfgs m) (ts ++ [t]) s)
    {e : NodesEvent cfgs} (he : e ∈ t.emitted) {h : HmSet} (hsum : eventSummary id e = some h) :
    SummaryWrite id ts e h := by
  obtain ⟨hwrite, hkey⟩ := eventSummary_eq_some hsum
  obtain ⟨⟨x, i⟩, e⟩ := e
  cases i with
  | node => cases e <;> simp [Part.write?] at hwrite
  | handler k => simp [Part.write?] at hwrite
  | fusion =>
    cases e with
    | hmSet h' =>
      obtain rfl := StoreWrite.hmSet.inj (Option.some.inj hwrite)
      obtain ⟨u, hemit, hlocal⟩ := view_concat_of_emitted hrun he
      rcases fusion_summary hlocal hemit with horigin | hother | hother
      · exact .sample x h' hkey horigin
      · rw [hkey] at hother
        contradiction
      · rw [hkey] at hother
        contradiction
    | _ => simp [Part.write?] at hwrite
  | poller k =>
    cases e with
    | hmSet h' =>
      obtain rfl := StoreWrite.hmSet.inj (Option.some.inj hwrite)
      obtain ⟨u, hemit, hlocal⟩ := view_concat_of_emitted hrun he
      obtain ⟨measured, c, hmeasured, rfl⟩ := comparing_summary hlocal hemit
      exact .poll x k (HashKey.ntpSummary.inj hkey) measured c hmeasured
    | _ => simp [Part.write?] at hwrite

theorem run_summary_hash (hrun : (nodes parse cfgs).toMachine.Run (Nodes.init cfgs m) ts s)
    (hkept : ∀ t ∈ ts, SummaryKept id t) :
    s.medium.hashes (.ntpSummary id) = (summariesOf id ts).foldl
      (fun fields h => h.fields.foldl setField fields) (m.hashes (.ntpSummary id)) := by
  induction hrun with
  | start => rfl
  | @turn ts s s' a es _ hstep ih =>
    obtain ⟨hbefore, hlast⟩ := List.forall_mem_append.mp hkept
    rw [summariesOf, events_append, events_singleton, List.filterMap_append, List.foldl_append,
      ← summariesOf, ← ih hbefore]
    cases a with
    | member i a =>
      obtain ⟨n, fs, _, _, rfl, rfl⟩ := step_member hstep
      exact hashes_writes s.medium i fs id
    | drift d =>
      obtain ⟨medium, hdrift, rfl, rfl⟩ := step_drift hstep
      have hkey := hlast _ (List.mem_singleton_self _) d rfl
      exact Contents.hash.inj (get_drift_of_ne hdrift hkey.symm)

private theorem nodup_pollSummary (src : NtpSource) (m : Measured) (c : Clocks) (o : Findings) :
    ((pollSummary src m c o).fields.map Prod.fst).Nodup := by
  obtain ⟨_, mean, ping⟩ := o
  cases mean <;> cases ping <;>
    simp [pollSummary, summaryFields, Findings.fields, resultField, Finding.field]

private theorem SummaryWrite.nodup {e : NodesEvent cfgs} {h : HmSet}
    (hwrite : SummaryWrite id ts e h) : (h.fields.map Prod.fst).Nodup := by
  cases hwrite with
  | poll => exact nodup_pollSummary _ _ _ _
  | sample x _ _ horigin =>
    obtain ⟨_, _, _, _, p, _, hh⟩ := horigin
    rw [← Effect.hmSet.inj hh]
    simp

/-- Each field has the value that was set last. -/
theorem run_summary_lookup (hrun : (nodes parse cfgs).toMachine.Run (Nodes.init cfgs m) ts s)
    (hkept : ∀ t ∈ ts, SummaryKept id t) (name : String) :
    (s.medium.hashes (.ntpSummary id)).lookup name =
      (((summariesOf id ts).filterMap fun h => h.fields.lookup name).getLast?).or
        ((m.hashes (.ntpSummary id)).lookup name) := by
  rw [run_summary_hash hrun hkept, lookup_hmSets]
  intro h hh
  obtain ⟨e, he, hsum⟩ := List.mem_filterMap.mp hh
  obtain ⟨t, ht, hemit⟩ := mem_events.mp he
  obtain ⟨before, rest, rfl⟩ := List.append_of_mem ht
  exact (summary_cases hrun.middle.2.2 hemit hsum).nodup

end Nodes

end Zeitpeer
