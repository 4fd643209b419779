import Zeitpeer.Net.Leftovers

/-!
# What a poll is compared with

A poller asks for the summaries of the other servers one by one, each at a moment of its own, and
takes from each the offset that was set last. That is the offset of the server's last poll, or, if
an iteration has set the summary since, the median of a sample that the iteration had collected.
-/

namespace Zeitpeer

open Framework Machine Ensemble

variable {N : Type} {cfgs : N → Config}

/-- The ids of the servers that a server is compared with, in the order of the reads. -/
def otherIds (cfg : Config) (src : NtpSource) : List UInt32 :=
  (cfg.ntpSources.map NtpSource.id).filter fun id => id ≠ src.id

private theorem comparedKeys_eq (cfg : Config) (src : NtpSource) :
    comparedKeys cfg src = (otherIds cfg src).map .ntpSummary := rfl

/-- The offset that was set last in the summary of a server. -/
def lastOffset (id : UInt32) (ts : List (NodesTurn cfgs)) : Option F64 :=
  ((summariesOf id ts).filterMap fun h => h.fields.lookup "offset_ns").getLast?

private theorem lastOffset_concat (id : UInt32) (ts : List (NodesTurn cfgs)) (t : NodesTurn cfgs) :
    lastOffset id (ts ++ [t]) = (lastOffset id [t]).or (lastOffset id ts) := by
  simp only [lastOffset, summariesOf, events_append, List.filterMap_append, List.getLast?_append]

/-- The offsets of servers, each at a moment of its own; the servers without one are left out. -/
def offsetsAt (ids : List UInt32) (moments : List (List (NodesTurn cfgs))) : List F64 :=
  (List.zipWith lastOffset ids moments).filterMap id

private theorem offsetsAt_concat {ids : List UInt32} {moments : List (List (NodesTurn cfgs))}
    {id : UInt32} (hid : ids[moments.length]? = some id) (ts : List (NodesTurn cfgs)) :
    offsetsAt ids (moments ++ [ts]) = offsetsAt ids moments ++ (lastOffset id ts).toList := by
  have hids : ids = ids.take moments.length ++ id :: ids.drop (moments.length + 1) := by
    obtain ⟨hlength, rfl⟩ := List.getElem?_eq_some_iff.mp hid
    simp
  have hlength : (ids.take moments.length).length = moments.length := by
    obtain ⟨hlength, _⟩ := List.getElem?_eq_some_iff.mp hid
    exact List.length_take_of_le hlength.le
  have hzip : ∀ rest, List.zipWith lastOffset ids (moments ++ rest) =
      List.zipWith lastOffset (ids.take moments.length) moments ++
        List.zipWith lastOffset (id :: ids.drop (moments.length + 1)) rest := by
    intro rest
    conv_lhs => rw [hids]
    exact List.zipWith_append hlength
  have hbefore := hzip []
  rw [List.append_nil, List.zipWith_nil_right, List.append_nil] at hbefore
  rw [offsetsAt, offsetsAt, hzip [ts], hbefore, List.filterMap_append]
  cases hlast : lastOffset id ts <;> simp [hlast]

/-- Moments since the measuring. -/
def MomentsSince (start ts : List (NodesTurn cfgs)) (moments : List (List (NodesTurn cfgs))) :
    Prop :=
  ∀ us ∈ moments, start <+: us ∧ us <+: ts

private theorem MomentsSince.append {start ts : List (NodesTurn cfgs)}
    {moments : List (List (NodesTurn cfgs))} (h : MomentsSince start ts moments)
    (us : List (NodesTurn cfgs)) : MomentsSince start (ts ++ us) moments := by
  intro vs hvs
  exact ⟨(h vs hvs).1, (h vs hvs).2.trans (List.prefix_append ts us)⟩

section Poller

variable {x : N} {k : Fin (cfgs x).ntpSources.length}

abbrev pollerPart (cfgs : N → Config) (x : N) (k : Fin (cfgs x).ntpSources.length) : PartIn cfgs :=
  ⟨x, .poller k⟩

/-- The last measuring of a poller is at the end of `start`. -/
structure Measuring (x : N) (k : Fin (cfgs x).ntpSources.length) (measured : Measured)
    (start ts : List (NodesTurn cfgs)) : Prop where
  ends : ∃ before u, start = before ++ [u] ∧
    ⟨pollerPart cfgs x k, PollerEvent.sampled measured⟩ ∈ u.emitted
  last : ∃ since, ts = start ++ since ∧
    ∀ again, ⟨pollerPart cfgs x k, PollerEvent.sampled again⟩ ∉ events since

private theorem Measuring.append {measured : Measured} {start ts : List (NodesTurn cfgs)}
    {t : NodesTurn cfgs} (h : Measuring x k measured start ts)
    (hquiet : ∀ again, ⟨pollerPart cfgs x k, PollerEvent.sampled again⟩ ∉ t.emitted) :
    Measuring x k measured start (ts ++ [t]) := by
  obtain ⟨hstart, since, rfl, hsince⟩ := h
  refine ⟨hstart, since ++ [t], by simp, ?_⟩
  intro again
  rw [mem_events_concat, not_or]
  exact ⟨hsince again, hquiet again⟩

variable [DecidableEq N]

/-- Where a poller stands with its comparison. -/
inductive ComparisonStage (x : N) (k : Fin (cfgs x).ntpSources.length)
    (ts : List (NodesTurn cfgs)) (c : Comparing) : Prop where
  | idle (htask : c.poller.task.measured? = none) (hnew : c.asked = 0 ∧ c.found = [])
  | asking {measured : Measured} {todo : List PollerEffect} {fields : List (String × F64)}
      (htask : c.poller.task = .storing measured todo fields) (hcompare : .compare ∈ todo)
      {start : List (NodesTurn cfgs)} (hstart : Measuring x k measured start ts)
      {moments : List (List (NodesTurn cfgs))} (hmoments : MomentsSince start ts moments)
      (hasked : moments.length = c.asked)
      (hfound : c.found = offsetsAt (otherIds (cfgs x) (serverOf cfgs x k)) moments)
  | compared {measured : Measured} {todo : List PollerEffect} {fields : List (String × F64)}
      (htask : c.poller.task = .storing measured todo fields) (hcompare : .compare ∉ todo)
      (hnew : c.asked = 0 ∧ c.found = []) {start : List (NodesTurn cfgs)}
      (hstart : Measuring x k measured start ts) {moments : List (List (NodesTurn cfgs))}
      (hmoments : MomentsSince start ts moments)
      (hasked : moments.length = (otherIds (cfgs x) (serverOf cfgs x k)).length)
      (hmean : (pollFindings x k ts).offsetVsMean =
        offsetVsMean measured (offsetsAt (otherIds (cfgs x) (serverOf cfgs x k)) moments))

private theorem ComparisonStage.new {ts : List (NodesTurn cfgs)} {c : Comparing}
    (h : ComparisonStage x k ts c) (hnone : c.poller.task.measured? = none) :
    c.asked = 0 ∧ c.found = [] := by
  cases h with
  | idle _ hnew => exact hnew
  | asking htask
  | compared htask => simp [htask, PollerTask.measured?] at hnone

private theorem ComparisonStage.append {ts : List (NodesTurn cfgs)} {t : NodesTurn cfgs}
    {c : Comparing} (h : ComparisonStage x k ts c) (hview : view (pollerPart cfgs x k) [t] = [])
    (hquiet : ∀ e, ⟨pollerPart cfgs x k, e⟩ ∉ t.emitted) : ComparisonStage x k (ts ++ [t]) c := by
  cases h with
  | idle htask hnew => exact .idle htask hnew
  | asking htask hcompare hstart hmoments hasked hfound =>
    exact .asking htask hcompare (hstart.append fun _ => hquiet _) (hmoments.append [t]) hasked
      hfound
  | compared htask hcompare hnew hstart hmoments hasked hmean =>
    refine .compared htask hcompare hnew (hstart.append fun _ => hquiet _) (hmoments.append [t])
      hasked ?_
    rw [← hmean, pollFindings, pollFindings, view_append, hview, List.append_nil]

private theorem withResult_storing {cfg : Config} {src : NtpSource} {measured : Measured}
    {metric : NtpMetric} {field : String} {result : Option F64} {todo : List PollerEffect}
    {fields : List (String × F64)} : ∃ todo' fields',
      withResult cfg src measured metric field result todo fields =
        .storing measured todo' fields' ∧ (.compare ∈ todo' ↔ .compare ∈ todo) := by
  cases result with
  | none => exact ⟨todo, fields, rfl, Iff.rfl⟩
  | some val => exact ⟨_, _, rfl, by simp [ntpAdd]⟩

private theorem ComparisonStage.stays {ts : List (NodesTurn cfgs)} {t : NodesTurn cfgs}
    {c c' : Comparing}
    {measured : Measured} {todo todo' : List PollerEffect} {fields fields' : List (String × F64)}
    (h : ComparisonStage x k ts c) (htask : c.poller.task = .storing measured todo fields)
    (htask' : c'.poller.task = .storing measured todo' fields')
    (hcompare : .compare ∈ todo' ↔ .compare ∈ todo)
    (hsame : c'.asked = c.asked ∧ c'.found = c.found)
    (hquiet : ∀ again, ⟨pollerPart cfgs x k, PollerEvent.sampled again⟩ ∉ t.emitted)
    (hmean : (pollFindings x k (ts ++ [t])).offsetVsMean = (pollFindings x k ts).offsetVsMean) :
    ComparisonStage x k (ts ++ [t]) c' := by
  cases h with
  | idle hnone => simp [htask, PollerTask.measured?] at hnone
  | asking hstoring hasks hstart hmoments hasked hfound =>
    obtain ⟨rfl, rfl, rfl⟩ := PollerTask.storing.inj (htask.symm.trans hstoring)
    exact .asking htask' (hcompare.mpr hasks) (hstart.append hquiet) (hmoments.append [t])
      (hasked.trans hsame.1.symm) (hsame.2.trans hfound)
  | compared hstoring hdone hnew hstart hmoments hasked hfound =>
    obtain ⟨rfl, rfl, rfl⟩ := PollerTask.storing.inj (htask.symm.trans hstoring)
    exact .compared htask' (mt hcompare.mp hdone)
      ⟨hsame.1.trans hnew.1, hsame.2.trans hnew.2⟩ (hstart.append hquiet) (hmoments.append [t])
      hasked (hmean.trans hfound)

private theorem ComparisonStage.answered {ts : List (NodesTurn cfgs)} {t : NodesTurn cfgs}
    {c c' : Comparing} {measured : Measured} {rest todo' : List PollerEffect}
    {fields fields' : List (String × F64)} (h : ComparisonStage x k ts c)
    (htask : c.poller.task = .storing measured (.compare :: rest) fields)
    (hall : c.asked = (otherIds (cfgs x) (serverOf cfgs x k)).length)
    (htask' : c'.poller.task = .storing measured todo' fields') (hdone : .compare ∉ todo')
    (hnew : c'.asked = 0 ∧ c'.found = [])
    (hquiet : ∀ again, ⟨pollerPart cfgs x k, PollerEvent.sampled again⟩ ∉ t.emitted)
    (hmean : (pollFindings x k (ts ++ [t])).offsetVsMean = offsetVsMean measured c.found) :
    ComparisonStage x k (ts ++ [t]) c' := by
  cases h with
  | idle hnone => simp [htask, PollerTask.measured?] at hnone
  | compared hstoring hcompare =>
    obtain ⟨_, rfl, _⟩ := PollerTask.storing.inj (htask.symm.trans hstoring)
    simp at hcompare
  | asking hstoring _ hstart hmoments hasked hfound =>
    obtain ⟨rfl, _, _⟩ := PollerTask.storing.inj (htask.symm.trans hstoring)
    refine .compared htask' hdone hnew (hstart.append hquiet) (hmoments.append [t])
      (hasked.trans hall) ?_
    rw [hmean, hfound]

private theorem ComparisonStage.complete {ts : List (NodesTurn cfgs)} {c : Comparing}
    (h : ComparisonStage x k ts c) {measured : Measured} {fields : List (String × F64)}
    (htask : c.poller.task = .storing measured [.hmSet] fields) :
    (c.asked = 0 ∧ c.found = []) ∧
      ∃ start moments, Measuring x k measured start ts ∧ MomentsSince start ts moments ∧
        moments.length = (otherIds (cfgs x) (serverOf cfgs x k)).length ∧
        (pollFindings x k ts).offsetVsMean =
          offsetVsMean measured (offsetsAt (otherIds (cfgs x) (serverOf cfgs x k)) moments) := by
  cases h with
  | idle hnone => simp [htask, PollerTask.measured?] at hnone
  | asking hstoring hasks =>
    obtain ⟨_, rfl, _⟩ := PollerTask.storing.inj (htask.symm.trans hstoring)
    simp at hasks
  | @compared _ _ _ hstoring _ hnew start hstart moments hmoments hasked hmean =>
    obtain ⟨rfl, _, _⟩ := PollerTask.storing.inj (htask.symm.trans hstoring)
    exact ⟨hnew, start, moments, hstart, hmoments, hasked, hmean⟩

private theorem ComparisonStage.own {ts : List (NodesTurn cfgs)} {t : NodesTurn cfgs}
    {c : Comparing} {b : PollerAction} {p : PollerState} {es : List PollerEvent}
    (h : ComparisonStage x k ts c)
    (hstep : PollerStep (cfgs x) (serverOf cfgs x k) c.poller b p es)
    (hready : c.ready (cfgs x) (serverOf cfgs x k) b = true)
    (hprogress : PollProgress (serverOf cfgs x k) (pollFindings x k ts) c.poller.task)
    (hemitted : ∀ e, ⟨pollerPart cfgs x k, e⟩ ∈ t.emitted ↔ e ∈ es)
    (hfindings : pollFindings x k (ts ++ [t]) =
      (pollFindings x k ts).after ⟨c.poller, b, es, p⟩) :
    ComparisonStage x k (ts ++ [t]) (c.after p b) := by
  have hquiet : (∀ again, .sampled again ∉ es) →
      ∀ again, ⟨pollerPart cfgs x k, PollerEvent.sampled again⟩ ∉ t.emitted :=
    fun hnot again hmem => hnot again ((hemitted _).mp hmem)
  cases hstep with
  | unread clocks htask
  | skipped htask =>
    exact .idle (by rw [Comparing.after_poller, htask]; rfl) (h.new (by rw [htask]; rfl))
  | request clocks htask
  | lost htask
  | rejected resp clocks htask => exact .idle rfl (h.new (by rw [htask]; rfl))
  | sampled resp clocks htask =>
    obtain ⟨hasked, hfound⟩ := h.new (by rw [htask]; rfl)
    have hmeasuring : Measuring x k (measure c.poller _) (ts ++ [t]) (ts ++ [t]) :=
      ⟨⟨ts, t, rfl, (hemitted _).mpr (List.mem_singleton_self _)⟩, [], by simp, by simp⟩
    have hmoments : MomentsSince (ts ++ [t]) (ts ++ [t]) [] := by simp [MomentsSince]
    refine .asking rfl (by simp [storeEffects]) hmeasuring hmoments hasked.symm ?_
    rw [offsetsAt, List.zipWith_nil_right]
    exact hfound
  | tsAdd htask =>
    refine h.stays htask rfl (by simp) ⟨rfl, rfl⟩ (hquiet (by simp)) ?_
    rw [hfindings]
    rfl
  | hmSet htask =>
    refine .idle rfl ?_
    rw [htask] at hprogress
    cases hprogress.2 with
    | complete => exact (h.complete htask).1
  | systemNow clocks htask =>
    refine h.stays htask rfl (by simp [ntpAdd]) ⟨rfl, rfl⟩ (hquiet (by simp)) ?_
    rw [hfindings]
    rfl
  | @compare others measured rest fields htask =>
    rw [htask] at hprogress
    have hrest : .compare ∉ rest := by
      cases hprogress.2 with
      | dated => simp
    obtain ⟨todo', fields', htask', hcompare⟩ : ∃ todo' fields', withMean (cfgs x)
        (serverOf cfgs x k) measured others rest fields = .storing measured todo' fields' ∧
        (PollerEffect.compare ∈ todo' ↔ PollerEffect.compare ∈ rest) := withResult_storing
    obtain ⟨hall, hothers⟩ := of_decide_eq_true hready
    rw [comparedKeys_eq, List.length_map] at hall
    refine h.answered htask hall htask' (mt hcompare.mp hrest) ⟨rfl, rfl⟩ (hquiet (by simp)) ?_
    rw [hfindings, ← hothers]
    simp only [Findings.after, htask, PollerTask.measured?, Option.bind_some]
  | ping ms htask =>
    obtain ⟨todo, fields, htask', hcompare⟩ := withResult_storing
    refine h.stays htask htask' (hcompare.trans (by simp)) ⟨rfl, rfl⟩ (hquiet (by simp)) ?_
    rw [hfindings]
    rfl

private theorem PollerTask.compare_mem {task : PollerTask} (h : task.compares = true)
    {measured : Measured} {todo : List PollerEffect} {fields : List (String × F64)}
    (htask : task = .storing measured todo fields) : .compare ∈ todo := by
  subst htask
  match todo, h with
  | .compare :: _, _ => exact List.mem_cons_self

private theorem ComparisonStage.read {ts : List (NodesTurn cfgs)} {t : NodesTurn cfgs}
    {c : Comparing} {id : UInt32} {fields : List (String × F64)} (h : ComparisonStage x k ts c)
    (hcompares : c.poller.task.compares = true)
    (hkey : (otherIds (cfgs x) (serverOf cfgs x k))[c.asked]? = some id)
    (hfields : fields.lookup "offset_ns" = lastOffset id ts)
    (hquiet : ∀ e, ⟨pollerPart cfgs x k, e⟩ ∉ t.emitted) :
    ComparisonStage x k (ts ++ [t]) { c with
      asked := c.asked + 1
      found := c.found ++ (fields.lookup "offset_ns").toList } := by
  cases h with
  | idle hnone =>
    generalize c.poller.task = task at hnone hcompares
    cases task <;> contradiction
  | compared htask hdone => exact absurd (PollerTask.compare_mem hcompares htask) hdone
  | @asking measured todo fields' htask hasks start hstart moments hmoments hasked hfound =>
    have hearlier : start <+: ts := by
      obtain ⟨since, rfl, _⟩ := hstart.last
      exact List.prefix_append start since
    have hmoments' : MomentsSince start (ts ++ [t]) (moments ++ [ts]) := by
      intro us hus
      rcases List.mem_append.mp hus with hus | hus
      · exact hmoments.append [t] us hus
      · rw [List.mem_singleton.mp hus]
        exact ⟨hearlier, List.prefix_append ts [t]⟩
    refine .asking htask hasks (hstart.append fun _ => hquiet _) hmoments' ?_ ?_
    · rw [List.length_append, hasked]
      rfl
    · rw [← hasked] at hkey
      rw [offsetsAt_concat hkey, hfound, hfields]

end Poller

/-! ## The runs of the nodes -/

section Runs

variable {parse : String → UInt16 → Option SocketAddr} {m : Shared} {ts : List (NodesTurn cfgs)}
  {t : NodesTurn cfgs} {s : NodesState cfgs} {x : N} {k : Fin (cfgs x).ntpSources.length}

/-- The reads of a comparison get their answers. -/
def ComparisonsAnswered (t : NodesTurn cfgs) : Prop :=
  ∀ y j key, t.action ≠ .member (pollerPart cfgs y j) (ComparingAction.getAll key none)

/-- The store has no summaries at the start, and they change by the writes of the nodes only. -/
structure SummariesOnly (m : Shared) (ts : List (NodesTurn cfgs)) : Prop where
  empty : ∀ id, m.hashes (.ntpSummary id) = []
  kept : ∀ t ∈ ts, ∀ id, SummaryKept id t

private theorem SummariesOnly.before {us : List (NodesTurn cfgs)} (h : SummariesOnly m (ts ++ us)) :
    SummariesOnly m ts :=
  ⟨h.empty, fun t ht => h.kept t (List.mem_append_left _ ht)⟩

variable [DecidableEq N]

private theorem SummariesOnly.lookup (h : SummariesOnly m ts)
    (hrun : (nodes parse cfgs).toMachine.Run (Nodes.init cfgs m) ts s) (id : UInt32) :
    (s.medium.hashes (.ntpSummary id)).lookup "offset_ns" = lastOffset id ts := by
  rw [run_summary_lookup hrun fun t ht => h.kept t ht id, h.empty, lastOffset]
  exact Option.or_none

private theorem pollFindings_own (ts : List (NodesTurn cfgs)) {b : PollerAction} {c c' : Comparing}
    {es : List PollerEvent}
    (hview : view (pollerPart cfgs x k) [t] = [⟨c, ComparingAction.own b, es, c'⟩]) :
    pollFindings x k (ts ++ [t]) =
      (pollFindings x k ts).after ⟨c.poller, b, es, c'.poller⟩ := by
  have hown : [(⟨c, .own b, es, c'⟩ : ComparingTurn)].filterMap ownTurn =
      [⟨c.poller, b, es, c'.poller⟩] := rfl
  rw [pollFindings, pollFindings, view_append, hview, comparingFindings, comparingFindings,
    List.filterMap_append]
  exact (congrArg findings (congrArg _ hown)).trans (findings_concat _ _)

theorem run_comparison (hrun : (nodes parse cfgs).toMachine.Run (Nodes.init cfgs m) ts s)
    (hsummaries : SummariesOnly m ts) (hanswered : ∀ t ∈ ts, ComparisonsAnswered t) :
    ComparisonStage x k ts (s.members (pollerPart cfgs x k)) := by
  induction hrun with
  | start => exact .idle rfl ⟨rfl, rfl⟩
  | @turn ts s s' a es hrun hstep ih =>
    obtain ⟨hbefore, hlast⟩ := List.forall_mem_append.mp hanswered
    have hstage := ih hsummaries.before hbefore
    rcases member_turn hstep (pollerPart cfgs x k) with
      ⟨hview, hsame, hquiet⟩ | ⟨a, fs, rfl, hallow, hlocal, rfl, hview⟩
    · rw [hsame]
      exact hstage.append hview hquiet
    · have hemitted : ∀ e, (⟨pollerPart cfgs x k, e⟩ : NodesEvent cfgs) ∈
          fs.map (Sigma.mk (pollerPart cfgs x k)) ↔ e ∈ fs :=
        fun e => List.mem_map_of_injective sigma_mk_injective
      generalize s'.members (pollerPart cfgs x k) = c' at hlocal hview ⊢
      obtain ⟨b, p, rfl, hready, hpoller, rfl⟩ | ⟨key, reply, rfl, hcompares, hkey, rfl, rfl⟩ :=
        comparing_cases hlocal
      · have hprogress := run_gathers (run_own (run_view hrun (pollerPart cfgs x k))).1
        have hfindings := pollFindings_own ts hview
        rw [Comparing.after_poller] at hfindings
        exact hstage.own (PollerStep.of_step hpoller) hready hprogress hemitted hfindings
      · cases reply with
        | none => exact absurd rfl (hlast _ (List.mem_singleton_self _) x k key)
        | some fields =>
          rw [comparedKeys_eq, List.getElem?_map] at hkey
          obtain ⟨id, hid, rfl⟩ := Option.map_eq_some_iff.mp hkey
          have hfields : s.medium.hashes (.ntpSummary id) = fields := of_decide_eq_true hallow
          have hlookup := hsummaries.before.lookup hrun id
          rw [hfields] at hlookup
          exact hstage.read hcompares hid hlookup fun e => by simp

/-- The turn sets the offset of a server: at the end of a poll of it, or from a sample of it that
the fusion loop has collected. -/
inductive OffsetSet (id : UInt32) (ts : List (NodesTurn cfgs)) (t : NodesTurn cfgs) :
    F64 → Prop where
  | polled (x : N) (k : Fin (cfgs x).ntpSources.length) (hid : (serverOf cfgs x k).id = id)
      {h : HmSet} (hemit : ⟨pollerPart cfgs x k, PollerEvent.hmSet h⟩ ∈ t.emitted)
      {measured : Measured} (hmeasured : (pollFindings x k ts).measured = some measured) :
      OffsetSet id ts t measured.sample.offsetNs
  | median (x : N) {p : PeerSample} (hid : summaryKey (cfgs x) p.peerId = .ntpSummary id)
      {h : HmSet} (hemit : ⟨⟨x, .fusion⟩, FusionEvent.hmSet h⟩ ∈ t.emitted)
      (hsummary : sampleSummary (cfgs x) p = .hmSet h)
      (hcollected : ∃ u ∈ view (Sigma.mk x .fusion : PartIn cfgs) ts, ∃ samples,
        u.before.task.collected? = some samples ∧ p ∈ samples) :
      OffsetSet id ts t p.offsetMedianNs

/-- The offset of a server that was set last in a history, if one was. -/
inductive LastSet (id : UInt32) : List (NodesTurn cfgs) → Option F64 → Prop where
  | never : LastSet id [] none
  | set {ts : List (NodesTurn cfgs)} {t : NodesTurn cfgs} {val : F64}
      (hset : OffsetSet id ts t val) : LastSet id (ts ++ [t]) (some val)
  | kept {ts : List (NodesTurn cfgs)} {t : NodesTurn cfgs} {val : Option F64}
      (hlast : LastSet id ts val) (hkept : ∀ val', ¬ OffsetSet id ts t val') :
      LastSet id (ts ++ [t]) val

private theorem lookup_offset_pollSummary (src : NtpSource) (measured : Measured) (c : Clocks)
    (o : Findings) :
    (pollSummary src measured c o).fields.lookup "offset_ns" =
      some (measured.sample.offsetNs : F64) := rfl

private theorem SummaryWrite.offsetSet {id : UInt32} {e : NodesEvent cfgs} (he : e ∈ t.emitted)
    {h : HmSet} (hwrite : SummaryWrite id ts e h) :
    ∃ val, h.fields.lookup "offset_ns" = some val ∧ OffsetSet id ts t val := by
  cases hwrite with
  | poll y j hid measured c hmeasured =>
    exact ⟨_, lookup_offset_pollSummary _ measured c _, .polled y j hid he hmeasured⟩
  | sample y _ hkey horigin =>
    obtain ⟨u, hu, samples, hcollected, p, hp, hsummary⟩ := horigin
    have hfields := Effect.hmSet.inj hsummary
    refine ⟨p.offsetMedianNs, by rw [← hfields]; rfl, ?_⟩
    refine .median y ?_ he hsummary ⟨u, hu, samples, hcollected, hp⟩
    rw [← hkey, ← hfields]

private theorem OffsetSet.summary
    (hrun : (nodes parse cfgs).toMachine.Run (Nodes.init cfgs m) (ts ++ [t]) s) {id : UInt32}
    {val : F64} (hset : OffsetSet id ts t val) :
    ∃ e ∈ t.emitted, ∃ h, eventSummary id e = some h := by
  cases hset with
  | polled y j hid hemit hmeasured =>
    obtain ⟨u, hu, hlocal⟩ := view_concat_of_emitted hrun hemit
    obtain ⟨measured, c, _, rfl⟩ := comparing_summary hlocal hu
    exact ⟨_, hemit, _, if_pos (congrArg HashKey.ntpSummary hid)⟩
  | median y hid hemit hsummary hcollected =>
    have hkey := congrArg HmSet.key (Effect.hmSet.inj hsummary)
    exact ⟨_, hemit, _, if_pos (hkey.symm.trans hid)⟩

theorem run_lastOffset (hrun : (nodes parse cfgs).toMachine.Run (Nodes.init cfgs m) ts s)
    (id : UInt32) : LastSet id ts (lastOffset id ts) := by
  induction hrun with
  | start => exact .never
  | @turn ts s s' a es hrun hstep ih =>
    have hwrites : ∀ h ∈ summariesOf id [⟨s, a, es, s'⟩], ∃ val,
        h.fields.lookup "offset_ns" = some val ∧ OffsetSet id ts ⟨s, a, es, s'⟩ val := by
      intro h hh
      obtain ⟨e, he, hsum⟩ := List.mem_filterMap.mp hh
      rw [events_singleton] at he
      exact (summary_cases (hrun.turn hstep) he hsum).offsetSet he
    rw [lastOffset_concat]
    cases hlast : lastOffset id [⟨s, a, es, s'⟩] with
    | some val =>
      obtain ⟨h, hh, hval⟩ := List.mem_filterMap.mp (List.mem_of_getLast? hlast)
      obtain ⟨val', hval', hset⟩ := hwrites h hh
      obtain rfl := Option.some.inj (hval.symm.trans hval')
      exact .set hset
    | none =>
      refine .kept ih ?_
      intro val hset
      obtain ⟨e, he, h, hsum⟩ := hset.summary (hrun.turn hstep)
      have hh : h ∈ summariesOf id [⟨s, a, es, s'⟩] :=
        List.mem_filterMap.mpr ⟨e, by rwa [events_singleton], hsum⟩
      obtain ⟨val', hval', _⟩ := hwrites h hh
      have hmem : val' ∈ (summariesOf id [⟨s, a, es, s'⟩]).filterMap
          fun h => h.fields.lookup "offset_ns" := List.mem_filterMap.mpr ⟨h, hh, hval'⟩
      rw [List.getLast?_eq_none_iff.mp hlast] at hmem
      contradiction

private theorem PollerStep.hmSet_task {cfg : Config} {src : NtpSource} {s s' : PollerState}
    {a : PollerAction} {es : List PollerEvent} (hstep : PollerStep cfg src s a s' es) {h : HmSet}
    (hemit : .hmSet h ∈ es) : ∃ m rest fields, s.task = .storing m (.hmSet :: rest) fields := by
  cases hstep with
  | hmSet htask => exact ⟨_, _, _, htask⟩
  | _ => simp at hemit

private theorem hmSet_cases
    (hrun : (nodes parse cfgs).toMachine.Run (Nodes.init cfgs m) (ts ++ [t]) s)
    {h : HmSet} (hemit : ⟨pollerPart cfgs x k, PollerEvent.hmSet h⟩ ∈ t.emitted) :
    ∃ measured fields c, (t.before.members (pollerPart cfgs x k)).poller.task =
        .storing measured [.hmSet] fields ∧
      h = pollSummary (serverOf cfgs x k) measured c (pollFindings x k ts) := by
  obtain ⟨u, hu, hlocal⟩ := view_concat_of_emitted hrun hemit
  obtain ⟨found, c, hfound, hsummary⟩ := comparing_summary hlocal hu
  obtain ⟨hbefore, hstep, _⟩ := hrun.last
  have hprogress := run_gathers (run_own (run_view hbefore (pollerPart cfgs x k))).1
  rcases member_turn hstep (pollerPart cfgs x k) with
    ⟨_, _, hquiet⟩ | ⟨a, fs, _, _, hown, hes, _⟩
  · exact absurd hemit (hquiet _)
  · rw [hes, List.mem_map_of_injective sigma_mk_injective] at hemit
    obtain ⟨b, p, _, _, hpoller, _⟩ | ⟨_, _, _, _, _, rfl, _⟩ := comparing_cases hown
    · obtain ⟨measured, rest, fields, htask⟩ := (PollerStep.of_step hpoller).hmSet_task hemit
      rw [htask] at hprogress
      obtain ⟨hmeasured, hgathered⟩ := hprogress
      obtain rfl := Option.some.inj (hmeasured.symm.trans hfound)
      cases hgathered with
      | complete => exact ⟨measured, _, c, htask, hsummary⟩
    · contradiction

/-- A poll publishes what it has measured, less the mean of the offsets of the other servers that
were set last when it asked for them, and it publishes no difference exactly if none was set. -/
theorem offset_vs_mean_law
    (hrun : (nodes parse cfgs).toMachine.Run (Nodes.init cfgs m) (ts ++ [t]) s)
    (hsummaries : SummariesOnly m (ts ++ [t])) (hanswered : ∀ u ∈ ts, ComparisonsAnswered u)
    {h : HmSet} (hemit : ⟨pollerPart cfgs x k, PollerEvent.hmSet h⟩ ∈ t.emitted) :
    ∃ measured start moments, Measuring x k measured start ts ∧ MomentsSince start ts moments ∧
      moments.length = (otherIds (cfgs x) (serverOf cfgs x k)).length ∧
      (∀ us ∈ moments, ∀ id, LastSet id us (lastOffset id us)) ∧
      h.fields.lookup "offset_ns" = some (measured.sample.offsetNs : F64) ∧
      h.fields.lookup "offset_vs_mean_ns" =
        let others := offsetsAt (otherIds (cfgs x) (serverOf cfgs x k)) moments
        if others = [] then none
        else some (measured.sample.offsetNs - others.sum / others.length) := by
  obtain ⟨hbefore, _, _⟩ := hrun.last
  obtain ⟨measured, fields, c, htask, rfl⟩ := hmSet_cases hrun hemit
  obtain ⟨_, start, moments, hstart, hmoments, hlength, hmean⟩ :=
    (run_comparison hbefore hsummaries.before hanswered).complete htask
  refine ⟨measured, start, moments, hstart, hmoments, hlength, ?_, ?_, ?_⟩
  · intro us hus id
    obtain ⟨vs, rfl⟩ := (hmoments us hus).2
    obtain ⟨r, hmoment⟩ := hbefore.cut
    exact run_lastOffset hmoment id
  · exact lookup_offset_pollSummary _ measured c _
  · have hlookup := lookup_pollSummary (serverOf cfgs x k) measured c (pollFindings x k ts)
      .offsetVsMean
    rw [Findings.get, hmean] at hlookup
    refine hlookup.trans ?_
    simp only [offsetVsMean, List.isEmpty_iff]

end Runs

/-! ## A median in between -/

/-- A node that is its own only peer, with two servers. -/
def meanConfig : Config :=
  { pollConfig with
    peers := [{ id := 1, ip := "10.0.0.1", port := 9123 }]
    filter := { pollConfig.filter with minSamplesPerPeer := 2 }
    ntpSources := [{ id := 11, host := "a" }, { id := 12, host := "b" }] }

def serverA : Fin meanConfig.ntpSources.length := ⟨0, by decide⟩

def serverB : Fin meanConfig.ntpSources.length := ⟨1, by decide⟩

def byPoller (k : Fin meanConfig.ntpSources.length) (as : List ComparingAction) :
    List (SoloMove meanConfig) :=
  as.map fun a => .member ⟨(), .poller k⟩ a

/-- A poll that finds the summary of the other server, up to its own summary. -/
def comparedPoll (now ahead : UInt64) (other : UInt32) (fields : List (String × F64)) :
    List ComparingAction :=
  let found := (fields.lookup "offset_ns").toList
  let rest : List PollerAction :=
    .compare found :: List.replicate found.length .publish ++ [.ping none]
  (exchangeMoves now ahead ++ storeMoves now).map .own ++
    [.getAll (.ntpSummary other) (some fields)] ++ rest.map .own

/-- The second server is polled twice, 5000 ns and then 7000 ns ahead. -/
def polledTwice : List (SoloMove meanConfig) :=
  byPoller serverB
    (comparedPoll 1700000000000000000 5000 11 [] ++ [.own .publish] ++
      comparedPoll 1700000002000000000 7000 11 [] ++ [.own .publish])

/-- The two readings of a series of the second server. -/
def bothPolls (val val' : F64) : List Entry :=
  [⟨1700000000000000256, val⟩, ⟨1700000002000000256, val'⟩]

/-- An iteration that fuses them, up to the summary of the server. -/
def medianMoves : List (SoloMove meanConfig) :=
  let since := 1700000003000000000 - 30000000000
  let as : List FusionAction :=
    [.tick 1700000003000000000, .recent (.ntp 11 .offset) since 2 (some []),
      .recent (.ntp 12 .offset) since 2 (some (bothPolls 4999 6999)),
      .recent (.ntp 12 .delay) since 2 (some (bothPolls 200 200)),
      .recent (.ntp 12 .jitter) since 2 (some (bothPolls 0 0)), .fuse 1700000003000000000] ++
      List.replicate 3 .publish ++ [.phcOffset .unreadable .unreadable, .publish]
  as.map fun a => .member ⟨(), .fusion⟩ a

/-- What the first server's poller then finds. -/
def medianSummary : List (String × F64) :=
  ((soloNode meanConfig).toMachine.stateAfter (Nodes.init _ emptyShared)
    (polledTwice ++ medianMoves)).medium.hashes (.ntpSummary 12)

def meanMoves : List (SoloMove meanConfig) :=
  polledTwice ++ medianMoves ++
    byPoller serverA (comparedPoll 1700000004000000000 5000 12 medianSummary)

private theorem mean_ending : Ending serverA meanMoves :=
  ⟨by decide +kernel, by decide +kernel, by decide +kernel⟩

private theorem Ending.comparisonsAnswered {cfg : Config} {k : Fin cfg.ntpSources.length}
    {moves : List (SoloMove cfg)} (h : Ending k moves) :
    ∀ u ∈ soloTurns moves, ComparisonsAnswered u := by
  intro u hu y j key hread
  have hmove := List.all_eq_true.mp h.answered _ (action_mem_of_turnsOf hu)
  rw [hread] at hmove
  contradiction

private theorem Ending.exists_summary {cfg : Config} {k : Fin cfg.ntpSources.length}
    {moves : List (SoloMove cfg)} (h : Ending k moves) :
    ∃ t x, (soloNode cfg).toMachine.Run (Nodes.init _ emptyShared) (soloTurns moves ++ [t])
        t.after ∧
      SummariesOnly emptyShared (soloTurns moves ++ [t]) ∧
      ⟨pollerPart (fun _ : Unit => cfg) () k, PollerEvent.hmSet x⟩ ∈ t.emitted := by
  obtain ⟨t, x, hrun, hkept, hemit⟩ := h.exists_end
  exact ⟨t, x, hrun, ⟨fun _ => rfl, fun u hu id => hkept id u hu⟩, hemit⟩

/-- The law for the poll of the first server. -/
theorem offset_vs_mean_law_median :
    ∃ t h, ∃ measured : Measured, ∃ moments : List (List (NodesTurn fun _ : Unit => meanConfig)),
      (soloNode meanConfig).toMachine.Run (Nodes.init _ emptyShared)
        (soloTurns meanMoves ++ [t]) t.after ∧
      ⟨pollerPart (fun _ : Unit => meanConfig) () serverA, PollerEvent.hmSet h⟩ ∈ t.emitted ∧
      h.fields.lookup "offset_ns" = some (measured.sample.offsetNs : F64) ∧
      h.fields.lookup "offset_vs_mean_ns" =
        let others := offsetsAt [12] moments
        if others = [] then none
        else some (measured.sample.offsetNs - others.sum / others.length) := by
  obtain ⟨t, h, hrun, hsummaries, hemit⟩ := mean_ending.exists_summary
  obtain ⟨measured, _, moments, _, _, _, _, hoffset, hmean⟩ :=
    offset_vs_mean_law hrun hsummaries mean_ending.comparisonsAnswered hemit
  exact ⟨t, h, measured, moments, hrun, hemit, hoffset, hmean⟩

/-- The offset that a poll of a server sets. -/
def polledOffset (id : UInt32) (e : NodesEvent cfgs) : Option F64 :=
  match e with
  | ⟨⟨x, .poller k⟩, .hmSet h⟩ =>
    if (serverOf cfgs x k).id = id then h.fields.lookup "offset_ns" else none
  | _ => none

def polledOffsets (id : UInt32) (ts : List (NodesTurn cfgs)) : List F64 :=
  (events ts).filterMap (polledOffset id)

/-- The latest polled offset of a server. -/
def lastPolled (id : UInt32) (ts : List (NodesTurn cfgs)) : Option F64 :=
  (polledOffsets id ts).getLast?

private theorem mem_of_lastPolled {id : UInt32} {us ts : List (NodesTurn cfgs)} (hpast : us <+: ts)
    {val : F64} (hlast : lastPolled id us = some val) : val ∈ polledOffsets id ts := by
  obtain ⟨vs, rfl⟩ := hpast
  rw [polledOffsets, events_append, List.filterMap_append]
  exact List.mem_append_left _ (List.mem_of_getLast? hlast)

private theorem offsetVsMean_singleton (measured : Measured) (val : F64) :
    offsetVsMean measured [val] = some (measured.sample.offsetNs - val) := by
  simp [offsetVsMean]

/-- The poll of the first server is compared with the median of the two polls of the second. -/
theorem mean_of_median :
    ¬ ∀ ts t s k h, (soloNode meanConfig).toMachine.Run (Nodes.init _ emptyShared) (ts ++ [t]) s →
      SummariesOnly emptyShared (ts ++ [t]) → (∀ u ∈ ts, ComparisonsAnswered u) →
      ⟨pollerPart (fun _ : Unit => meanConfig) () k, PollerEvent.hmSet h⟩ ∈ t.emitted →
      ∃ measured moments, (pollFindings () k ts).measured = some measured ∧
        (∀ us ∈ moments, us <+: ts) ∧
        moments.length = (otherIds meanConfig (meanConfig.ntpSources.get k)).length ∧
        h.fields.lookup "offset_vs_mean_ns" = offsetVsMean measured
          ((List.zipWith lastPolled (otherIds meanConfig (meanConfig.ntpSources.get k))
            moments).filterMap id) := by
  intro hmeans
  obtain ⟨t, h, hrun, hsummaries, hemit⟩ := mean_ending.exists_summary
  obtain ⟨measured, moments, hmeasured, hmoments, hlength, hmean⟩ :=
    hmeans _ t _ serverA h hrun hsummaries mean_ending.comparisonsAnswered hemit
  obtain ⟨us, rfl⟩ := List.length_eq_one_iff.mp (hlength.trans (by decide))
  obtain ⟨_, _, c, _, hsummary⟩ := hmSet_cases hrun hemit
  have hfound : (pollFindings () serverA (soloTurns meanMoves)).offsetVsMean = some (-1000) := by
    decide +kernel
  have hown : (pollFindings () serverA (soloTurns meanMoves)).measured.map
      (fun m => m.sample.offsetNs) = some 4999 := by decide +kernel
  have hpolls : polledOffsets 12 (soloTurns meanMoves) = [4999, 6999] := by decide +kernel
  have hpublished : h.fields.lookup "offset_vs_mean_ns" = some (-1000) := by
    rw [hsummary]
    exact (lookup_pollSummary _ _ c _ .offsetVsMean).trans hfound
  have hoffset : measured.sample.offsetNs = 4999 := by
    rw [hmeasured] at hown
    exact Option.some.inj hown
  have hothers : otherIds meanConfig (meanConfig.ntpSources.get serverA) = [12] := by decide
  rw [hothers, List.zipWith_cons_cons, List.zipWith_nil_left, hpublished] at hmean
  cases hlast : lastPolled 12 us with
  | none =>
    rw [hlast] at hmean
    contradiction
  | some val =>
    have hval := mem_of_lastPolled (hmoments us (List.mem_singleton_self us)) hlast
    rw [hpolls] at hval
    have hsingle : [some val].filterMap id = [val] := rfl
    rw [hlast, hsingle, offsetVsMean_singleton, hoffset] at hmean
    rcases List.mem_pair.mp hval with rfl | rfl
    all_goals
      have hsame := Option.some.inj hmean
      norm_num at hsame

end Zeitpeer
