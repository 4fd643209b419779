import Zeitpeer.Telemetry.Handlers

/-!
# The body of the metrics

One line for the node, then what each read adds, in the order of the reads. A read that failed
adds nothing, and neither does a field that a summary lacks.
-/

namespace Zeitpeer

open Framework Machine

/-- A line of the body: a comment, or a metric with its labels and its value. -/
inductive MetricLine where
  | comment (text : String)
  | sample (metric : String) (labels : List (String × String)) (val : F64)
  deriving DecidableEq, Repr

def MetricLine.metric? : MetricLine → Option String
  | .comment _ => none
  | .sample metric _ _ => some metric

/-- An id as it is printed. -/
def idLabel (id : UInt32) : String := id.toNat.repr

def PROM_QUANTILES : List (F64 × String) := [(1 / 2, "0.50"), (95 / 100, "0.95")]

def percentile (sortedValues : List F64) (q : F64) : Option F64 :=
  if sortedValues.isEmpty then none
  else
    let clamped := clamp 0 1 q
    let pos := clamped * (sortedValues.length - 1 : Nat)
    let idx := ⌊pos⌋.toNat
    let frac := pos - idx
    if idx + 1 < sortedValues.length then
      some (sortedValues.getD idx 0 +
        (sortedValues.getD (idx + 1) 0 - sortedValues.getD idx 0) * frac)
    else sortedValues.getLast?

def addQuantileSeries (metric : String) (samples : List Entry) : List MetricLine :=
  if samples.isEmpty then []
  else
    let values := sortBy id (samples.map Entry.val)
    PROM_QUANTILES.filterMap fun q =>
      (percentile values q.1).map fun val => .sample metric [("quantile", q.2)] val

/-- The last value with its type, then the quantiles. -/
def primaryLines (metric : String) (samples : List Entry) : List MetricLine :=
  (match samples.getLast? with
    | some e => [.comment ("# TYPE " ++ metric ++ " gauge"), .sample metric [] e.val]
    | none => []) ++ addQuantileSeries metric samples

/-- The metrics of the fields that a summary has; the others are left out. -/
def summaryLines (metrics : List (String × String)) (labels : List (String × String))
    (map : List (String × F64)) : List MetricLine :=
  metrics.filterMap fun m => (map.lookup m.2).map fun val => .sample m.1 labels val

def peerMetrics : List (String × String) :=
  [("zeitpeer_peer_offset_ns", "offset_ns"), ("zeitpeer_peer_delay_ns", "delay_ns"),
    ("zeitpeer_peer_jitter_ns", "jitter_ns"), ("zeitpeer_peer_score", "score")]

def appendPeerMetrics (peerId : UInt32) (map : List (String × F64)) : List MetricLine :=
  summaryLines peerMetrics [("peer_id", idLabel peerId)] map

def ntpMetrics : List (String × String) :=
  [("zeitpeer_ntp_offset_ns", "offset_ns"), ("zeitpeer_ntp_delay_ns", "delay_ns"),
    ("zeitpeer_ntp_jitter_ns", "jitter_ns"), ("zeitpeer_ntp_score", "score"),
    ("zeitpeer_ntp_stratum", "stratum"), ("zeitpeer_ntp_weight", "weight"),
    ("zeitpeer_ntp_drift_ppm", "drift_ppm"), ("zeitpeer_ntp_remote_time_seconds", "remote_time_s"),
    ("zeitpeer_ntp_remote_delta_seconds", "system_delta_s"), ("zeitpeer_ntp_ping_ms", "ping_ms"),
    ("zeitpeer_ntp_offset_vs_mean_ns", "offset_vs_mean_ns")]

def appendNtpMetrics (source : NtpSource) (map : List (String × F64)) : List MetricLine :=
  summaryLines ntpMetrics
    [("ntp_id", idLabel source.id), ("alias", source.alias.getD source.host)] map

def timeoutsTotal (peerId : UInt32) (val : F64) : MetricLine :=
  .sample "zeitpeer_peer_timeouts_total" [("peer_id", idLabel peerId)] val

/-- A read of the handler and what its answer adds to the body. -/
structure MetricsJob where
  query : Query
  lines : Answer → List MetricLine

def primaryJob (key : SeriesKey) (metric : String) : MetricsJob where
  query := .recent key
  lines
    | .recent (some samples) => primaryLines metric samples
    | _ => []

def summaryJob (key : HashKey) (append : List (String × F64) → List MetricLine) : MetricsJob where
  query := .getAll key
  lines
    | .getAll (some map) => append map
    | _ => []

def timeoutLines (peerId : UInt32) : Answer → List MetricLine
  | .last (some (some e)) => [timeoutsTotal peerId e.val]
  | _ => []

def timeoutsJob (peerId : UInt32) : MetricsJob where
  query := .last (.peer peerId .timeouts)
  lines := timeoutLines peerId

def writePrimaryMetrics : List MetricsJob :=
  [primaryJob (.fused .ewma) "zeitpeer_p2p_fused_offset_ns",
    primaryJob (.fused .driftPpm) "zeitpeer_drift_ppm",
    primaryJob (.phc .systemOffset) "zeitpeer_phc_vs_sys_offset_ns",
    primaryJob (.phc .fusedDelta) "zeitpeer_p2p_vs_phc_offset_ns"]

def writePeerMetrics (cfg : Config) : List MetricsJob :=
  (cfg.peers.flatMap fun p =>
    [summaryJob (.peerSummary p.id) (appendPeerMetrics p.id), timeoutsJob p.id]) ++
    cfg.ntpSources.map fun n => summaryJob (.ntpSummary n.id) (appendNtpMetrics n)

def metricsJobs (cfg : Config) : List MetricsJob := writePrimaryMetrics ++ writePeerMetrics cfg

def metricsBody (cfg : Config) (answers : List Answer) : List MetricLine :=
  .comment "# zeitpeer metrics" ::
    .sample "zeitpeer_node_info" [("node_id", idLabel cfg.nodeId)] 1 ::
    (List.zipWith MetricsJob.lines (metricsJobs cfg) answers).flatten

/-- The reads are those that the handler makes. -/
theorem metricsJobs_query (cfg : Config) :
    (metricsJobs cfg).map MetricsJob.query = metricsQueries cfg := by
  simp only [metricsJobs, writePeerMetrics, metricsQueries, List.map_append, List.map_map,
    List.append_assoc, List.map_flatMap]
  rfl

theorem idLabel_inj {id id' : UInt32} : idLabel id = idLabel id' ↔ id = id' := by
  constructor
  · intro h
    apply UInt32.toNat_inj.mp
    have hdigits := congrArg (fun s : String => Nat.ofDigitChars 10 s.toList 0) h
    simpa [idLabel, Nat.toList_repr, Nat.ofDigitChars_ten_toDigits] using hdigits
  · exact congrArg idLabel

private theorem timeoutsTotal_inj {id id' : UInt32} {val val' : F64} :
    timeoutsTotal id val = timeoutsTotal id' val' ↔ id = id' ∧ val = val' := by
  simp [timeoutsTotal, idLabel_inj]

private theorem mem_timeoutLines {id : UInt32} {answer : Answer} {line : MetricLine} :
    line ∈ timeoutLines id answer ↔
      ∃ e, answer = .last (some (some e)) ∧ line = timeoutsTotal id e.val := by
  constructor
  · intro h
    match answer with
    | .last (some (some e)) => exact ⟨e, rfl, List.mem_singleton.mp h⟩
  · rintro ⟨e, rfl, rfl⟩
    exact List.mem_singleton_self _

private theorem metric_primaryLines {metric : String} {samples : List Entry} {line : MetricLine}
    (h : line ∈ primaryLines metric samples) :
    line.metric? = none ∨ line.metric? = some metric := by
  rcases List.mem_append.mp h with h | h
  · cases hlast : samples.getLast? with
    | none => simp [hlast] at h
    | some e =>
      rw [hlast] at h
      rcases List.mem_pair.mp h with rfl | rfl
      · exact .inl rfl
      · exact .inr rfl
  · rw [addQuantileSeries] at h
    split at h
    · contradiction
    · obtain ⟨q, _, hq⟩ := List.mem_filterMap.mp h
      obtain ⟨val, _, rfl⟩ := Option.map_eq_some_iff.mp hq
      exact .inr rfl

private theorem metric_summaryLines {metrics labels : List (String × String)}
    {map : List (String × F64)} {line : MetricLine} (h : line ∈ summaryLines metrics labels map) :
    ∃ m ∈ metrics, line.metric? = some m.1 := by
  obtain ⟨m, hm, hline⟩ := List.mem_filterMap.mp h
  obtain ⟨val, _, rfl⟩ := Option.map_eq_some_iff.mp hline
  exact ⟨m, hm, rfl⟩

private theorem timeoutsTotal_mem_lines {cfg : Config} {job : MetricsJob}
    (hjob : job ∈ metricsJobs cfg)
    {answer : Answer} {id : UInt32} {val : F64} (h : timeoutsTotal id val ∈ job.lines answer) :
    job.query = .last (.peer id .timeouts) ∧ timeoutsTotal id val ∈ timeoutLines id answer := by
  have hprimary : ∀ {key metric}, metric ≠ "zeitpeer_peer_timeouts_total" →
      job ≠ primaryJob key metric := by
    rintro key metric hmetric rfl
    match answer with
    | .recent (some samples) =>
      rcases metric_primaryLines h with hname | hname
      · contradiction
      · exact hmetric (Option.some.inj hname).symm
  have hsummary : ∀ {key metrics labels}, "zeitpeer_peer_timeouts_total" ∉ metrics.map Prod.fst →
      job ≠ summaryJob key (summaryLines metrics labels) := by
    rintro key metrics labels hmetrics rfl
    match answer with
    | .getAll (some map) =>
      obtain ⟨m, hm, hname⟩ := metric_summaryLines h
      exact hmetrics (List.mem_map.mpr ⟨m, hm, (Option.some.inj hname).symm⟩)
  rcases List.mem_append.mp hjob with hjob | hjob
  · simp only [writePrimaryMetrics, List.mem_cons, List.not_mem_nil, or_false] at hjob
    rcases hjob with hjob | hjob | hjob | hjob <;> exact absurd hjob (hprimary (by decide))
  · rcases List.mem_append.mp hjob with hjob | hjob
    · obtain ⟨p, _, hp⟩ := List.mem_flatMap.mp hjob
      rcases List.mem_pair.mp hp with hp | rfl
      · exact absurd hp (hsummary (by decide))
      · obtain ⟨e, rfl, heq⟩ := mem_timeoutLines.mp h
        obtain ⟨rfl, rfl⟩ := timeoutsTotal_inj.mp heq
        exact ⟨rfl, h⟩
    · obtain ⟨n, _, rfl⟩ := List.mem_map.mp hjob
      exact absurd rfl (hsummary (by decide))

private theorem eq_timeoutsJob {cfg : Config} {job : MetricsJob} (hjob : job ∈ metricsJobs cfg)
    {id : UInt32} (hquery : job.query = .last (.peer id .timeouts)) : job = timeoutsJob id := by
  rcases List.mem_append.mp hjob with hjob | hjob
  · simp only [writePrimaryMetrics, List.mem_cons, List.not_mem_nil, or_false] at hjob
    rcases hjob with rfl | rfl | rfl | rfl <;> contradiction
  · rcases List.mem_append.mp hjob with hjob | hjob
    · obtain ⟨p, _, hp⟩ := List.mem_flatMap.mp hjob
      rcases List.mem_pair.mp hp with rfl | rfl
      · contradiction
      · obtain ⟨rfl, _⟩ := SeriesKey.peer.inj (Query.last.inj hquery)
        rfl
    · obtain ⟨n, _, rfl⟩ := List.mem_map.mp hjob
      contradiction

/-- The lines about a peer's timeouts in the body are those of the reads of its timeouts. -/
theorem timeoutsTotal_mem_metricsBody {cfg : Config} {answers : List Answer} {id : UInt32}
    {val : F64} : timeoutsTotal id val ∈ metricsBody cfg answers ↔
      ∃ e : Entry, (.last (.peer id .timeouts), .last (some (some e))) ∈
        (metricsQueries cfg).zip answers ∧ e.val = val := by
  have hbody : metricsBody cfg answers = .comment "# zeitpeer metrics" ::
      .sample "zeitpeer_node_info" [("node_id", idLabel cfg.nodeId)] 1 ::
      ((metricsJobs cfg).zip answers).flatMap fun x => x.1.lines x.2 := by
    rw [metricsBody, ← List.map_uncurry_zip_eq_zipWith]
    rfl
  have hnode : timeoutsTotal id val ≠
      .sample "zeitpeer_node_info" [("node_id", idLabel cfg.nodeId)] 1 := by
    simp [timeoutsTotal]
  rw [hbody, ← metricsJobs_query, List.zip_map_left]
  constructor
  · intro h
    rcases List.mem_cons.mp h with hhead | h
    · contradiction
    · have hlines := (List.mem_cons.mp h).resolve_left hnode
      obtain ⟨⟨job, answer⟩, hzip, hline⟩ := List.mem_flatMap.mp hlines
      obtain ⟨hquery, hline⟩ := timeoutsTotal_mem_lines (List.of_mem_zip hzip).1 hline
      obtain ⟨e, rfl, heq⟩ := mem_timeoutLines.mp hline
      refine ⟨e, List.mem_map.mpr ⟨_, hzip, ?_⟩, (timeoutsTotal_inj.mp heq).2.symm⟩
      rw [Prod.map, hquery, id_eq]
  · rintro ⟨e, hmem, rfl⟩
    obtain ⟨⟨job, answer⟩, hzip, heq⟩ := List.mem_map.mp hmem
    obtain ⟨hquery, rfl⟩ := Prod.mk.inj heq
    obtain rfl := eq_timeoutsJob (List.of_mem_zip hzip).1 hquery
    apply List.mem_cons_of_mem
    apply List.mem_cons_of_mem
    exact List.mem_flatMap.mpr ⟨_, hzip, mem_timeoutLines.mpr ⟨e, rfl, rfl⟩⟩

/-- The read that an action makes for a response, with its answer. -/
def HandlerAction.answered : HandlerAction → Option (Query × Answer)
  | .recent key _ _ reply => some (.recent key, .recent reply)
  | .getAll key reply => some (.getAll key, .getAll reply)
  | .last key reply => some (.last key, .last reply)
  | _ => none

theorem HandlerAction.answered_last {a : HandlerAction} {key : SeriesKey}
    {reply : Option (Option Entry)} (h : a.answered = some (.last key, .last reply)) :
    a = .last key reply := by
  cases a with
  | last =>
    obtain ⟨hkey, hreply⟩ := Prod.mk.inj (Option.some.inj h)
    rw [Query.last.inj hkey, Answer.last.inj hreply]
  | _ => simp [HandlerAction.answered] at h

abbrev HandlerTurn := Turn HandlerTask HandlerAction HandlerEvent

/-- The history of a response that is being made: the request, and then a read for each answer. -/
def Answering (cfg : Config) (ts : List HandlerTurn) : HandlerTask → Prop
  | .metrics _ todo answers => ∃ before start reads done, ts = before ++ start :: reads ∧
      (∃ now, start.action = .metrics now) ∧ metricsQueries cfg = done ++ todo ∧
      done.length = answers.length ∧
      reads.map (fun t => t.action.answered) = (done.zip answers).map some
  | _ => True

private theorem answering_read {cfg : Config} {ts : List HandlerTurn} {since : UInt64} {q : Query}
    {todo : List Query} {answers : List Answer} {t : HandlerTurn} {answer : Answer}
    (h : Answering cfg ts (.metrics since (q :: todo) answers))
    (hanswered : t.action.answered = some (q, answer)) :
    Answering cfg (ts ++ [t]) (.metrics since todo (answers ++ [answer])) := by
  obtain ⟨before, start, reads, done, rfl, hstart, hqueries, hlength, hreads⟩ := h
  refine ⟨before, start, reads ++ [t], done ++ [q], by simp, hstart, by simp [hqueries],
    by simp [hlength], ?_⟩
  rw [List.map_append, hreads, List.zip_append hlength, List.map_append]
  simp [hanswered]

private theorem HandlerStep.answering {cfg : Config} {ts : List HandlerTurn}
    {task task' : HandlerTask}
    {a : HandlerAction} {es : List HandlerEvent} (hstep : HandlerStep cfg task a task' es)
    (h : Answering cfg ts task) : Answering cfg (ts ++ [⟨task, a, es, task'⟩]) task' := by
  cases hstep with
  | metrics now => exact ⟨ts, _, [], [], rfl, ⟨now, rfl⟩, rfl, rfl, rfl⟩
  | recent
  | getAll
  | last => exact answering_read h rfl
  | _ => trivial

theorem run_answering {cfg : Config} {ts : List HandlerTurn} {task : HandlerTask}
    (hrun : (handler cfg).Run .idle ts task) : Answering cfg ts task := by
  induction hrun with
  | start => trivial
  | turn _ hstep ih => exact (HandlerStep.of_step hstep).answering ih

/-- The answers of a response are those to the reads since the request. -/
theorem run_answers {cfg : Config} {ts : List HandlerTurn} {t : HandlerTurn} {task : HandlerTask}
    (hrun : (handler cfg).Run .idle (ts ++ [t]) task) {answers : List Answer}
    (hemit : .metrics answers ∈ t.emitted) :
    ∃ before start reads, ts = before ++ start :: reads ∧
      (∃ now, start.action = .metrics now) ∧
      reads.map (fun u => u.action.answered) =
        ((metricsQueries cfg).zip answers).map some := by
  obtain ⟨hbefore, hstep, _⟩ := hrun.last
  obtain ⟨task, a, es, task'⟩ := t
  have hanswering := run_answering hbefore
  cases HandlerStep.of_step hstep with
  | respond since answers =>
    obtain rfl := HandlerEvent.metrics.inj (List.mem_singleton.mp hemit)
    obtain ⟨before, start, reads, done, hts, hstart, hqueries, _, hreads⟩ := hanswering
    rw [List.append_nil] at hqueries
    subst hqueries
    exact ⟨before, start, reads, hts, hstart, hreads⟩
  | _ => simp at hemit

end Zeitpeer
