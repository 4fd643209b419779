import Mathlib.Data.Rat.Encodable
import Zeitpeer.Telemetry.Exposition

/-!
# The whole body

A scraper takes a body only if every line can be read and no two samples have one name and the
same labels. The body is both for every configuration with distinct ids and with aliases that have
nothing to escape, whatever the reads have answered.
-/

namespace Zeitpeer

open Framework Machine Framework.Exposition

variable {floats : FloatText F64}

/-- The text of the body: that of its lines, one after the other. -/
def bodyText (floats : FloatText F64) (cfg : Config) (answers : List Answer) : String :=
  String.join ((metricsBody cfg answers).map (MetricLine.text floats))

def labelTexts (labels : List (String × String)) : List (List Char × List Char) :=
  labels.map fun l => (l.1.toList, l.2.toList)

/-- The sample that a line is about. -/
def MetricLine.sample? : MetricLine → Option (Sample F64)
  | .comment _ => none
  | .sample metric labels val => some ⟨metric.toList, labelTexts labels, val, none⟩

/-- What tells a sample from others: its metric and its labels. -/
def MetricLine.name? : MetricLine → Option (String × List (String × String))
  | .comment _ => none
  | .sample metric labels _ => some (metric, labels)

/-- A comment of one line, or a sample with proper names and plain label values. -/
def MetricLine.Readable : MetricLine → Prop
  | .comment text => ∃ rest, text.toList = '#' :: rest ∧ '\n' ∉ rest
  | .sample metric labels _ => metricChars.isName metric.toList ∧
      ∀ l ∈ labels, labelChars.isName l.1.toList ∧ Plain l.2.toList

private theorem toList_labels {labels : List (String × String)} (hne : labels ≠ [])
    (hplain : ∀ l ∈ labels, Plain l.2.toList) :
    (",".intercalate (labels.map fun l => l.1 ++ "=\"" ++ l.2 ++ "\"")).toList ++ ['}'] =
      printPairs (labelTexts labels) := by
  induction labels with
  | nil => contradiction
  | cons l labels ih =>
    obtain ⟨hl, hplain⟩ := List.forall_mem_cons.mp hplain
    cases labels with
    | nil => simp [labelTexts, printPairs, printPair, escape_of_plain hl]
    | cons l' labels =>
      have hrest := ih (by simp) hplain
      simp only [List.map_cons] at hrest ⊢
      rw [String.intercalate_cons_cons, String.toList_append, List.append_assoc, hrest]
      simp [labelTexts, printPairs, printPair, escape_of_plain hl]

private theorem toList_labelsText {labels : List (String × String)}
    (hplain : ∀ l ∈ labels, Plain l.2.toList) :
    (labelsText labels).toList = printLabels (labelTexts labels) := by
  by_cases hne : labels = []
  · subst hne
    rfl
  · have hpairs := toList_labels hne hplain
    rw [labelsText, List.isEmpty_eq_false_iff.mpr hne, printLabels,
      List.isEmpty_eq_false_iff.mpr (by simpa [labelTexts] using hne), ← hpairs]
    simp

private theorem parseBody_text {line : MetricLine} (h : line.Readable) :
    parseBody floats.toNumerals (line.text floats).toList = some line.sample?.toList := by
  cases line with
  | comment text =>
    obtain ⟨rest, htext, hline⟩ := h
    have hnewline : '\n' ∉ '#' :: rest := by simpa using hline
    have hread : parseLine floats.toNumerals ('#' :: rest) = some [] := rfl
    rw [MetricLine.text, String.toList_append, htext]
    change parseBody _ ('#' :: rest ++ ['\n']) = _
    rw [parseBody_line hnewline, hread]
    rfl
  | sample metric labels val =>
    obtain ⟨hmetric, hlabels⟩ := h
    have hnames : ∀ p ∈ labelTexts labels, labelChars.isName p.1 := by
      intro p hp
      obtain ⟨l, hl, rfl⟩ := List.mem_map.mp hp
      exact (hlabels l hl).1
    have htext : ((MetricLine.sample metric labels val).text floats).toList =
        printLine floats.toNumerals metric.toList (labelTexts labels) val := by
      simp [MetricLine.text, printLine, toList_labelsText fun l hl => (hlabels l hl).2]
    rw [htext, parseBody_printLine hmetric hnames]
    rfl

private theorem isComplete_text (line : MetricLine) : isComplete (line.text floats).toList := by
  cases line <;> exact isComplete_iff.mpr (.inr ⟨_, String.toList_append⟩)

private theorem parseBody_texts {lines : List MetricLine} (h : ∀ line ∈ lines, line.Readable) :
    parseBody floats.toNumerals (lines.flatMap fun line => (line.text floats).toList) =
      some (lines.filterMap MetricLine.sample?) := by
  induction lines with
  | nil => rfl
  | cons line lines ih =>
    obtain ⟨hline, hlines⟩ := List.forall_mem_cons.mp h
    rw [List.flatMap_cons, parseBody_append (isComplete_text line), parseBody_text hline, ih hlines]
    cases hsample : line.sample? <;> simp [hsample]

private theorem primaryLines_readable {metric : String} (hmetric : metricChars.isName metric.toList)
    (hmetric' : '\n' ∉ metric.toList) (samples : List Entry) :
    ∀ line ∈ primaryLines metric samples, line.Readable := by
  intro line hline
  rcases List.mem_append.mp hline with hline | hline
  · cases hlast : samples.getLast? with
    | none => simp [hlast] at hline
    | some e =>
      rw [hlast] at hline
      rcases List.mem_pair.mp hline with rfl | rfl
      · exact ⟨_, by simp; rfl, by simp [hmetric']⟩
      · exact ⟨hmetric, by simp⟩
  · rw [addQuantileSeries] at hline
    split at hline
    · contradiction
    · obtain ⟨q, hq, hsome⟩ := List.mem_filterMap.mp hline
      obtain ⟨val, _, rfl⟩ := Option.map_eq_some_iff.mp hsome
      have hplain : ["0.50", "0.95"].all fun label => label.toList.all (!needsEscape ·) := by decide
      have hlabel := List.all_eq_true.mp hplain q.2 (List.mem_map_of_mem (f := Prod.snd) hq)
      refine ⟨hmetric, ?_⟩
      intro l hl
      rw [List.mem_singleton.mp hl]
      refine ⟨(by decide : labelChars.isName "quantile".toList), ?_⟩
      intro c hc
      simpa using List.all_eq_true.mp hlabel c hc

private theorem summaryLines_readable {metrics labels : List (String × String)}
    (hmetrics : ∀ m ∈ metrics, metricChars.isName m.1.toList)
    (hlabels : ∀ l ∈ labels, labelChars.isName l.1.toList ∧ Plain l.2.toList)
    (map : List (String × F64)) : ∀ line ∈ summaryLines metrics labels map, line.Readable := by
  intro line hline
  obtain ⟨m, hm, hsome⟩ := List.mem_filterMap.mp hline
  obtain ⟨val, _, rfl⟩ := Option.map_eq_some_iff.mp hsome
  exact ⟨hmetrics m hm, hlabels⟩

private theorem peerLabels_readable (id : UInt32) : ∀ l ∈ [("peer_id", idLabel id)],
    labelChars.isName l.1.toList ∧ Plain l.2.toList := by
  intro l hl
  rw [List.mem_singleton.mp hl]
  exact ⟨(by decide : labelChars.isName "peer_id".toList), plain_idLabel id⟩

/-- The metrics of `write_primary_metrics`. -/
def primaryMetrics : List (SeriesKey × String) :=
  [(.fused .ewma, "zeitpeer_p2p_fused_offset_ns"), (.fused .driftPpm, "zeitpeer_drift_ppm"),
    (.phc .systemOffset, "zeitpeer_phc_vs_sys_offset_ns"),
    (.phc .fusedDelta, "zeitpeer_p2p_vs_phc_offset_ns")]

section Answered

variable {P : List MetricLine → Prop} (hnone : P [])

include hnone

private theorem lines_primaryJob {key : SeriesKey} {metric : String}
    (h : ∀ samples, P (primaryLines metric samples)) (answer : Answer) :
    P ((primaryJob key metric).lines answer) := by
  cases answer with
  | recent reply =>
    cases reply with
    | none => exact hnone
    | some samples => exact h samples
  | _ => exact hnone

private theorem lines_summaryJob {key : HashKey} {append : List (String × F64) → List MetricLine}
    (h : ∀ map, P (append map)) (answer : Answer) : P ((summaryJob key append).lines answer) := by
  cases answer with
  | getAll reply =>
    cases reply with
    | none => exact hnone
    | some map => exact h map
  | _ => exact hnone

private theorem lines_timeoutsJob {id : UInt32} (h : ∀ val, P [timeoutsTotal id val])
    (answer : Answer) : P ((timeoutsJob id).lines answer) := by
  cases answer with
  | last reply =>
    cases reply with
    | none => exact hnone
    | some last =>
      cases last with
      | none => exact hnone
      | some e => exact h e.val
  | _ => exact hnone

private theorem lines_cases {cfg : Config}
    (hprimary : ∀ m ∈ primaryMetrics, ∀ samples, P (primaryLines m.2 samples))
    (hpeer : ∀ p ∈ cfg.peers, ∀ map, P (appendPeerMetrics p.id map))
    (htimeouts : ∀ p ∈ cfg.peers, ∀ val, P [timeoutsTotal p.id val])
    (hntp : ∀ n ∈ cfg.ntpSources, ∀ map, P (appendNtpMetrics n map)) :
    ∀ job ∈ metricsJobs cfg, ∀ answer, P (job.lines answer) := by
  intro job hjob
  rcases List.mem_append.mp hjob with hjob | hjob
  · have hjobs : writePrimaryMetrics = primaryMetrics.map fun m => primaryJob m.1 m.2 := rfl
    rw [hjobs] at hjob
    obtain ⟨m, hm, rfl⟩ := List.mem_map.mp hjob
    exact lines_primaryJob hnone (hprimary m hm)
  · rcases List.mem_append.mp hjob with hjob | hjob
    · obtain ⟨p, hp, hjob⟩ := List.mem_flatMap.mp hjob
      rcases List.mem_pair.mp hjob with rfl | rfl
      · exact lines_summaryJob hnone (hpeer p hp)
      · exact lines_timeoutsJob hnone (htimeouts p hp)
    · obtain ⟨n, hn, rfl⟩ := List.mem_map.mp hjob
      exact lines_summaryJob hnone (hntp n hn)

end Answered

private theorem MetricLine.Readable.plain_of_name {line : MetricLine}
    {name : String × List (String × String)} (h : line.Readable) (hname : line.name? = some name) :
    ∀ l ∈ name.2, Plain l.2.toList := by
  cases line with
  | comment => contradiction
  | sample metric labels val =>
    obtain rfl := Option.some.inj hname
    exact fun l hl => (h.2 l hl).2

/-- A line with the id and the alias of a server. -/
def MetricLine.OfServer (line : MetricLine) (n : NtpSource) : Prop :=
  ∃ metric val, metricChars.isName metric.toList ∧
    line = .sample metric [("ntp_id", idLabel n.id), ("alias", aliasLabel n)] val

private theorem MetricLine.OfServer.readable_iff {line : MetricLine} {n : NtpSource}
    (h : line.OfServer n) : line.Readable ↔ Plain (aliasLabel n).toList := by
  obtain ⟨metric, val, hmetric, rfl⟩ := h
  constructor
  · rintro ⟨_, hlabels⟩
    exact (hlabels ("alias", aliasLabel n) (by simp)).2
  · intro hplain
    refine ⟨hmetric, ?_⟩
    intro l hl
    rcases List.mem_pair.mp hl with rfl | rfl
    · exact ⟨(by decide : labelChars.isName "ntp_id".toList), plain_idLabel n.id⟩
    · exact ⟨(by decide : labelChars.isName "alias".toList), hplain⟩

private theorem metricsBody_lines (cfg : Config) (answers : List Answer) :
    ∀ line ∈ metricsBody cfg answers,
      line.Readable ∨ ∃ n ∈ cfg.ntpSources, line.OfServer n := by
  have hjob : ∀ job ∈ metricsJobs cfg, ∀ answer, ∀ line ∈ job.lines answer,
      line.Readable ∨ ∃ n ∈ cfg.ntpSources, line.OfServer n := by
    apply lines_cases (P := fun lines => ∀ line ∈ lines,
      line.Readable ∨ ∃ n ∈ cfg.ntpSources, line.OfServer n)
    · exact List.forall_mem_nil _
    · intro m hm samples line hline
      have hnames : ∀ m ∈ primaryMetrics,
          metricChars.isName m.2.toList ∧ '\n' ∉ m.2.toList := by decide
      exact .inl (primaryLines_readable (hnames m hm).1 (hnames m hm).2 samples line hline)
    · intro p _ map line hline
      exact .inl (summaryLines_readable (by decide) (peerLabels_readable p.id) map line hline)
    · intro p _ val line hline
      rw [List.mem_singleton.mp hline]
      exact .inl ⟨by decide, peerLabels_readable p.id⟩
    · intro n hn map line hline
      obtain ⟨m, hm, hsome⟩ := List.mem_filterMap.mp hline
      obtain ⟨val, _, rfl⟩ := Option.map_eq_some_iff.mp hsome
      exact .inr ⟨n, hn, m.1, val, isName_of_ntpMetrics hm, rfl⟩
  intro line hline
  rcases List.mem_cons.mp hline with rfl | hline
  · exact .inl ⟨" zeitpeer metrics".toList, rfl, by decide⟩
  · rcases List.mem_cons.mp hline with rfl | hline
    · refine .inl ⟨by decide, ?_⟩
      intro l hl
      rw [List.mem_singleton.mp hl]
      exact ⟨(by decide : labelChars.isName "node_id".toList), plain_idLabel cfg.nodeId⟩
    · rw [← List.map_uncurry_zip_eq_zipWith] at hline
      obtain ⟨chunk, hchunk, hline⟩ := List.mem_flatten.mp hline
      obtain ⟨⟨job, answer⟩, hzip, rfl⟩ := List.mem_map.mp hchunk
      exact hjob job (List.of_mem_zip hzip).1 answer line hline

private theorem readable_of_parseBody {sources : List NtpSource} {lines : List MetricLine}
    (hlines : ∀ line ∈ lines, line.Readable ∨ ∃ n ∈ sources, line.OfServer n)
    (hread : parseBody floats.toNumerals (lines.flatMap fun line => (line.text floats).toList) =
      some (lines.filterMap MetricLine.sample?)) : ∀ line ∈ lines, line.Readable := by
  induction lines with
  | nil => exact List.forall_mem_nil _
  | cons line lines ih =>
    obtain ⟨hline, hlines⟩ := List.forall_mem_cons.mp hlines
    rw [List.flatMap_cons] at hread
    have hreadable : line.Readable := by
      rcases hline with hline | ⟨n, _, hserver⟩
      · exact hline
      · apply hserver.readable_iff.mpr
        obtain ⟨metric, val, hmetric, rfl⟩ := hserver
        have htext : (MetricLine.sample metric
            [("ntp_id", idLabel n.id), ("alias", aliasLabel n)] val).text floats =
            ntpLine floats n metric val := by
          apply String.toList_inj.mp
          simp [ntpLine, MetricLine.text, labelsText]
        rw [htext] at hread
        exact plain_of_parseBody hmetric hread
    rw [parseBody_append (isComplete_text line), parseBody_text hreadable] at hread
    refine List.forall_mem_cons.mpr ⟨hreadable, ih hlines ?_⟩
    cases hsample : line.sample? <;> simpa [hsample] using hread

/-! ## What a read adds -/

/-- The metrics that one read adds, as one. -/
def family (metric : String) : String :=
  if metric ∈ peerMetrics.map Prod.fst then "zeitpeer_peer"
  else if metric ∈ ntpMetrics.map Prod.fst then "zeitpeer_ntp"
  else metric

/-- The family of a sample and its labels, but for the quantile. -/
def owner (name : String × List (String × String)) : String × List (String × String) :=
  (family name.1, name.2.filter fun l => l.1 ≠ "quantile")

/-- The names of the lines are some of these, in order. -/
def NamesIn (names : List (String × List (String × String))) (lines : List MetricLine) : Prop :=
  (lines.filterMap MetricLine.name?).Sublist names

private theorem namesIn_filterMap {α β : Type} {l : List α} {f : α → Option β}
    {line : α → β → MetricLine}
    {name : α → String × List (String × String)} (h : ∀ x v, (line x v).name? = some (name x)) :
    NamesIn (l.map name) (l.filterMap fun x => (f x).map (line x)) := by
  induction l with
  | nil => exact .slnil
  | cons x l ih =>
    rw [List.filterMap_cons]
    cases f x with
    | none => exact ih.cons _
    | some v =>
      rw [Option.map_some, NamesIn, List.filterMap_cons_some (h x v)]
      exact ih.cons_cons _

private theorem namesIn_summaryLines (metrics labels : List (String × String))
    (map : List (String × F64)) :
    NamesIn (metrics.map fun m => (m.1, labels)) (summaryLines metrics labels map) :=
  namesIn_filterMap fun _ _ => rfl

def primaryNames (metric : String) : List (String × List (String × String)) :=
  (metric, []) :: ["0.50", "0.95"].map fun label => (metric, [("quantile", label)])

private theorem namesIn_primaryLines (metric : String) (samples : List Entry) :
    NamesIn (primaryNames metric) (primaryLines metric samples) := by
  have hquantiles : NamesIn (["0.50", "0.95"].map fun label => (metric, [("quantile", label)]))
      (addQuantileSeries metric samples) := by
    rw [addQuantileSeries]
    split
    · exact List.nil_sublist _
    · have hlabels : (["0.50", "0.95"].map fun label => (metric, [("quantile", label)])) =
          PROM_QUANTILES.map fun q => (metric, [("quantile", q.2)]) := rfl
      rw [hlabels]
      exact namesIn_filterMap fun _ _ => rfl
  rw [primaryLines, NamesIn, List.filterMap_append]
  cases samples.getLast? with
  | none => exact hquantiles.cons _
  | some e => exact hquantiles.cons_cons _

/-- Whatever the answer, a job adds distinct names, and all have one owner. -/
def MetricsJob.Owns (job : MetricsJob) (o : String × List (String × String)) : Prop :=
  ∀ answer, ((job.lines answer).filterMap MetricLine.name?).Nodup ∧
    ∀ name ∈ (job.lines answer).filterMap MetricLine.name?, owner name = o

private theorem MetricsJob.Owns.of_namesIn {job : MetricsJob} {o : String × List (String × String)}
    (names : List (String × List (String × String)))
    (hlines : ∀ answer, NamesIn names (job.lines answer))
    (hnodup : names.Nodup) (howner : ∀ name ∈ names, owner name = o) : job.Owns o :=
  fun answer => ⟨(hlines answer).nodup hnodup,
    fun name hname => howner name ((hlines answer).subset hname)⟩

private theorem owns_primaryJob {m : SeriesKey × String} (hm : m ∈ primaryMetrics) :
    (primaryJob m.1 m.2).Owns (m.2, []) := by
  apply MetricsJob.Owns.of_namesIn (primaryNames m.2)
  · apply lines_primaryJob (P := NamesIn _) (List.nil_sublist _)
    exact namesIn_primaryLines m.2
  · simp [primaryNames]
  · have howner : ∀ m ∈ primaryMetrics, ∀ name ∈ primaryNames m.2,
        owner name = (m.2, []) := by decide
    exact howner m hm

private theorem owns_summaryJob {key : HashKey} {metrics labels : List (String × String)}
    {o : String} (hmetrics : (metrics.map Prod.fst).Nodup) (hfamily : ∀ m ∈ metrics, family m.1 = o)
    (hlabels : ∀ l ∈ labels, l.1 ≠ "quantile") :
    (summaryJob key (summaryLines metrics labels)).Owns (o, labels) := by
  apply MetricsJob.Owns.of_namesIn (metrics.map fun m => (m.1, labels))
  · apply lines_summaryJob (P := NamesIn _) (List.nil_sublist _)
    exact namesIn_summaryLines metrics labels
  · apply List.Nodup.of_map Prod.fst
    simpa [Function.comp_def] using hmetrics
  · intro name hname
    obtain ⟨m, hm, rfl⟩ := List.mem_map.mp hname
    rw [owner, hfamily m hm, List.filter_eq_self.mpr]
    exact fun l hl => decide_eq_true (hlabels l hl)

private theorem owns_timeoutsJob (id : UInt32) :
    (timeoutsJob id).Owns ("zeitpeer_peer_timeouts_total", [("peer_id", idLabel id)]) := by
  apply MetricsJob.Owns.of_namesIn
    [("zeitpeer_peer_timeouts_total", [("peer_id", idLabel id)])]
  · apply lines_timeoutsJob (P := NamesIn _) (List.nil_sublist _)
    exact fun val => List.Sublist.refl _
  · exact List.nodup_singleton _
  · intro name hname
    rw [List.mem_singleton.mp hname]
    rfl

def peerOwners (p : PeerEntry) : List (String × List (String × String)) :=
  [("zeitpeer_peer", [("peer_id", idLabel p.id)]),
    ("zeitpeer_peer_timeouts_total", [("peer_id", idLabel p.id)])]

def ntpOwner (n : NtpSource) : String × List (String × String) :=
  ("zeitpeer_ntp", [("ntp_id", idLabel n.id), ("alias", aliasLabel n)])

def metricsOwners (cfg : Config) : List (String × List (String × String)) :=
  (primaryMetrics.map fun m => (m.2, [])) ++
    (cfg.peers.flatMap peerOwners ++ cfg.ntpSources.map ntpOwner)

private theorem owns_metricsJobs (cfg : Config) :
    List.Forall₂ MetricsJob.Owns (metricsJobs cfg) (metricsOwners cfg) := by
  have hprimary : List.Forall₂ MetricsJob.Owns writePrimaryMetrics
      (primaryMetrics.map fun m => (m.2, [])) := by
    have hjobs : writePrimaryMetrics = primaryMetrics.map fun m => primaryJob m.1 m.2 := rfl
    rw [hjobs, List.forall₂_map_left_iff, List.forall₂_map_right_iff, List.forall₂_same]
    exact fun m hm => owns_primaryJob hm
  have hpeers : List.Forall₂ MetricsJob.Owns
      (cfg.peers.flatMap fun p =>
        [summaryJob (.peerSummary p.id) (appendPeerMetrics p.id), timeoutsJob p.id])
      (cfg.peers.flatMap peerOwners) := by
    induction cfg.peers with
    | nil => exact .nil
    | cons p peers ih =>
      refine .cons ?_ (.cons (owns_timeoutsJob p.id) ih)
      exact owns_summaryJob (by decide) (by decide) (by simp)
  have hntp : List.Forall₂ MetricsJob.Owns
      (cfg.ntpSources.map fun n => summaryJob (.ntpSummary n.id) (appendNtpMetrics n))
      (cfg.ntpSources.map ntpOwner) := by
    rw [List.forall₂_map_left_iff, List.forall₂_map_right_iff, List.forall₂_same]
    exact fun n _ => owns_summaryJob (by decide) (by decide) (by simp)
  exact List.rel_append hprimary (List.rel_append hpeers hntp)

def bodyNames (cfg : Config) (answers : List Answer) : List (String × List (String × String)) :=
  (metricsBody cfg answers).filterMap MetricLine.name?

private theorem bodyNames_eq (cfg : Config) (answers : List Answer) :
    bodyNames cfg answers = ("zeitpeer_node_info", [("node_id", idLabel cfg.nodeId)]) ::
      ((metricsJobs cfg).zip answers).flatMap fun x =>
        (x.1.lines x.2).filterMap MetricLine.name? := by
  rw [bodyNames, metricsBody, ← List.map_uncurry_zip_eq_zipWith, ← List.filterMap_flatMap]
  rfl

private theorem names_nodup {jobs : List MetricsJob}
    {owners : List (String × List (String × String))}
    (h : List.Forall₂ MetricsJob.Owns jobs owners) (hnodup : owners.Nodup)
    (answers : List Answer) :
    ((jobs.zip answers).flatMap fun x => (x.1.lines x.2).filterMap MetricLine.name?).Nodup ∧
      ∀ name ∈ (jobs.zip answers).flatMap fun x => (x.1.lines x.2).filterMap MetricLine.name?,
        owner name ∈ owners := by
  induction h generalizing answers with
  | nil => exact ⟨List.nodup_nil, List.forall_mem_nil _⟩
  | @cons job o jobs owners hjob _ ih =>
    cases answers with
    | nil => exact ⟨List.nodup_nil, List.forall_mem_nil _⟩
    | cons answer answers =>
      obtain ⟨ho, hnodup⟩ := List.nodup_cons.mp hnodup
      obtain ⟨hnames, howner⟩ := hjob answer
      obtain ⟨hrest, howners⟩ := ih hnodup answers
      rw [List.zip_cons_cons, List.flatMap_cons]
      constructor
      · apply List.Nodup.append hnames hrest
        intro name hname hname'
        apply ho
        rw [← howner name hname]
        exact howners name hname'
      · intro name hname
        rcases List.mem_append.mp hname with hname | hname
        · rw [howner name hname]
          exact List.mem_cons_self
        · exact List.mem_cons_of_mem _ (howners name hname)

private theorem metricsOwners_nodup {cfg : Config} (hpeers : (cfg.peers.map PeerEntry.id).Nodup)
    (hntp : (cfg.ntpSources.map fun n => (n.id, aliasLabel n)).Nodup) :
    (metricsOwners cfg).Nodup := by
  have hpeer : (cfg.peers.flatMap peerOwners).Nodup := by
    rw [List.nodup_flatMap]
    constructor
    · intro p _
      simp [peerOwners]
    · apply (List.pairwise_map.mp hpeers).imp
      intro p p' hne
      simp [Function.onFun, peerOwners, idLabel_inj, hne.symm]
  have hsource : (cfg.ntpSources.map ntpOwner).Nodup := by
    apply List.pairwise_map.mpr
    apply (List.pairwise_map.mp hntp).imp
    intro n n' hne
    simpa [ntpOwner, idLabel_inj] using hne
  apply List.Nodup.append (by decide) (List.Nodup.append hpeer hsource ?_)
  · simp [List.disjoint_left, primaryMetrics, peerOwners, ntpOwner]
  · intro o hpeer hsource
    obtain ⟨p, _, ho⟩ := List.mem_flatMap.mp hpeer
    obtain ⟨n, _, rfl⟩ := List.mem_map.mp hsource
    simp [peerOwners, ntpOwner] at ho

private theorem bodyNames_nodup {cfg : Config} (hpeers : (cfg.peers.map PeerEntry.id).Nodup)
    (hntp : (cfg.ntpSources.map fun n => (n.id, aliasLabel n)).Nodup) (answers : List Answer) :
    (bodyNames cfg answers).Nodup := by
  have hnode : ("zeitpeer_node_info", [("node_id", idLabel cfg.nodeId)]) ∉ metricsOwners cfg := by
    simp [metricsOwners, primaryMetrics, peerOwners, ntpOwner]
  obtain ⟨hnames, howners⟩ := names_nodup (owns_metricsJobs cfg) (metricsOwners_nodup hpeers hntp)
    answers
  rw [bodyNames_eq, List.nodup_cons]
  exact ⟨fun hmem => hnode (howners _ hmem), hnames⟩

/-- The kind of answer that a read gets. -/
inductive Query.Fits : Query → Answer → Prop where
  | recent (key : SeriesKey) (reply : Option (List Entry)) : Fits (.recent key) (.recent reply)
  | getAll (key : HashKey) (reply : Option (List (String × F64))) :
      Fits (.getAll key) (.getAll reply)
  | last (key : SeriesKey) (reply : Option (Option Entry)) : Fits (.last key) (.last reply)

theorem run_reads {cfg : Config} {since : UInt64} {todo : List Query} {answers : List Answer}
    (h : List.Forall₂ Query.Fits todo answers) (done : List Answer) :
    ∃ ts, (handler cfg).Run (.metrics since todo done) ts
      (.metrics since [] (done ++ answers)) := by
  induction h generalizing done with
  | nil => exact ⟨[], by simpa using Run.start⟩
  | @cons q answer todo answers hfit _ ih =>
    have hstep : ∃ a, (handler cfg).step (.metrics since (q :: todo) done) a =
        some (.metrics since todo (done ++ [answer]), []) := by
      cases hfit with
      | recent key reply =>
        exact ⟨.recent key since METRIC_LOOKBACK_LIMIT reply, by simp [handler, handlerStep]⟩
      | getAll key reply => exact ⟨.getAll key reply, by simp [handler, handlerStep]⟩
      | last key reply => exact ⟨.last key reply, by simp [handler, handlerStep]⟩
    obtain ⟨a, hstep⟩ := hstep
    obtain ⟨ts, hrun⟩ := ih (done ++ [answer])
    rw [List.append_assoc] at hrun
    exact ⟨_, (Run.turn .start hstep).append hrun⟩

/-- Whatever the reads answer, the handler can be asked and send the body. -/
theorem run_response {cfg : Config} {answers : List Answer}
    (h : List.Forall₂ Query.Fits (metricsQueries cfg) answers) :
    ∃ ts t task, (handler cfg).Run .idle (ts ++ [t]) task ∧ .metrics answers ∈ t.emitted := by
  have hstart : (handler cfg).step .idle (.metrics 0) =
      some (.metrics (saturatingSub 0 (metricsWindowNs cfg)) (metricsQueries cfg) [], []) := rfl
  obtain ⟨ts, hrun⟩ := run_reads h []
  exact ⟨_, _, _, ((Run.turn .start hstart).append hrun).turn (a := .respond) rfl,
    List.mem_singleton_self _⟩

/-! ## What a scraper takes -/

def bodySamples (cfg : Config) (answers : List Answer) : List (Sample F64) :=
  (metricsBody cfg answers).filterMap MetricLine.sample?

/-- The body is read as its samples, and no two of them have one metric and the same labels. -/
def BodyTaken (floats : FloatText F64) (cfg : Config) (answers : List Answer) : Prop :=
  parseBody floats.toNumerals (bodyText floats cfg answers).toList =
      some (bodySamples cfg answers) ∧
    ((bodySamples cfg answers).map fun s => (s.metric, s.labels)).Nodup

private theorem toList_bodyText (cfg : Config) (answers : List Answer) :
    (bodyText floats cfg answers).toList =
      (metricsBody cfg answers).flatMap fun line => (line.text floats).toList := by
  rw [bodyText]
  induction metricsBody cfg answers with
  | nil => rfl
  | cons line lines ih => simp [ih]

private theorem samples_nodup_iff {cfg : Config} {answers : List Answer} :
    ((bodySamples cfg answers).map fun s => (s.metric, s.labels)).Nodup ↔
      (bodyNames cfg answers).Nodup := by
  have hnames : ((bodySamples cfg answers).map fun s => (s.metric, s.labels)) =
      (bodyNames cfg answers).map fun name => (name.1.toList, labelTexts name.2) := by
    rw [bodySamples, bodyNames, List.map_filterMap, List.map_filterMap]
    congr 1
    funext line
    cases line <;> rfl
  have hlabel : Function.Injective fun l : String × String => (l.1.toList, l.2.toList) := by
    intro l l' h
    obtain ⟨hname, hval⟩ := Prod.mk.inj h
    exact Prod.ext (String.toList_inj.mp hname) (String.toList_inj.mp hval)
  rw [hnames]
  apply List.nodup_map_iff
  intro name name' h
  obtain ⟨hmetric, hlabels⟩ := Prod.mk.inj h
  exact Prod.ext (String.toList_inj.mp hmetric) (List.map_injective_iff.mpr hlabel hlabels)

/-- An answer in which a summary has an offset. -/
def offsetAnswer : Query → Answer
  | .recent _ => .recent none
  | .getAll _ => .getAll (some [("offset_ns", 1)])
  | .last _ => .last none

private theorem offsetAnswer_fits (queries : List Query) :
    List.Forall₂ Query.Fits queries (queries.map offsetAnswer) := by
  induction queries with
  | nil => exact .nil
  | cons q queries ih => exact .cons (by cases q <;> constructor) ih

private theorem bodyNames_map (cfg : Config) (f : Query → Answer) :
    bodyNames cfg ((metricsQueries cfg).map f) =
      ("zeitpeer_node_info", [("node_id", idLabel cfg.nodeId)]) ::
        (metricsJobs cfg).flatMap fun job =>
          (job.lines (f job.query)).filterMap MetricLine.name? := by
  rw [bodyNames, metricsBody, ← metricsJobs_query, List.map_map, List.zipWith_map_right,
    List.zipWith_self, ← List.flatMap_def, ← List.filterMap_flatMap]
  rfl

private theorem bodyNames_offsetAnswer (cfg : Config) :
    bodyNames cfg ((metricsQueries cfg).map offsetAnswer) =
      ("zeitpeer_node_info", [("node_id", idLabel cfg.nodeId)]) ::
        ((cfg.peers.map fun p => ("zeitpeer_peer_offset_ns", [("peer_id", idLabel p.id)])) ++
          cfg.ntpSources.map fun n => ("zeitpeer_ntp_offset_ns",
            [("ntp_id", idLabel n.id), ("alias", aliasLabel n)])) := by
  rw [bodyNames_map, metricsJobs, writePeerMetrics, List.flatMap_append, List.flatMap_append,
    List.flatMap_assoc, List.flatMap_map, List.map_eq_flatMap, List.map_eq_flatMap]
  rfl

private theorem bodyTaken_of_plain {cfg : Config}
    (hplain : ∀ n ∈ cfg.ntpSources, Plain (aliasLabel n).toList)
    (hpeers : (cfg.peers.map PeerEntry.id).Nodup)
    (hntp : (cfg.ntpSources.map fun n => (n.id, aliasLabel n)).Nodup) (answers : List Answer) :
    BodyTaken floats cfg answers := by
  constructor
  · rw [toList_bodyText, bodySamples]
    apply parseBody_texts
    intro line hline
    rcases metricsBody_lines cfg answers line hline with hline | ⟨n, hn, hserver⟩
    · exact hline
    · exact hserver.readable_iff.mpr (hplain n hn)
  · exact samples_nodup_iff.mpr (bodyNames_nodup hpeers hntp answers)

private theorem of_bodyTaken_offsetAnswer {cfg : Config}
    (h : BodyTaken floats cfg ((metricsQueries cfg).map offsetAnswer)) :
    (∀ n ∈ cfg.ntpSources, Plain (aliasLabel n).toList) ∧
      (cfg.peers.map PeerEntry.id).Nodup ∧
      (cfg.ntpSources.map fun n => (n.id, aliasLabel n)).Nodup := by
  obtain ⟨hread, hnodup⟩ := h
  rw [toList_bodyText, bodySamples] at hread
  have hreadable := readable_of_parseBody (metricsBody_lines cfg _) hread
  have hnames := samples_nodup_iff.mp hnodup
  rw [bodyNames_offsetAnswer] at hnames
  obtain ⟨hpeers, hntp, _⟩ := List.nodup_append.mp (List.nodup_cons.mp hnames).2
  refine ⟨?_, ?_, ?_⟩
  · intro n hn
    have hname : ("zeitpeer_ntp_offset_ns", [("ntp_id", idLabel n.id), ("alias", aliasLabel n)]) ∈
        bodyNames cfg ((metricsQueries cfg).map offsetAnswer) := by
      rw [bodyNames_offsetAnswer]
      apply List.mem_cons_of_mem
      exact List.mem_append_right _ (List.mem_map_of_mem hn)
    obtain ⟨line, hline, hname⟩ := List.mem_filterMap.mp hname
    have hlabels := (hreadable line hline).plain_of_name hname
    exact hlabels ("alias", aliasLabel n) (by simp)
  · apply List.Nodup.of_map fun id => ("zeitpeer_peer_offset_ns", [("peer_id", idLabel id)])
    rw [List.map_map]
    exact hpeers
  · apply List.Nodup.of_map fun n : UInt32 × String =>
      ("zeitpeer_ntp_offset_ns", [("ntp_id", idLabel n.1), ("alias", n.2)])
    rw [List.map_map]
    exact hntp

/-- A scraper takes every body that the handler can send exactly if no alias, or host, of a server
has a quote, a backslash or a line feed, the ids of the peers are distinct, and no two servers
have one id and the same alias. -/
theorem scrapes_taken_iff (floats : FloatText F64) (cfg : Config) :
    (∀ ts t task answers, (handler cfg).Run .idle (ts ++ [t]) task →
        .metrics answers ∈ t.emitted → BodyTaken floats cfg answers) ↔
      (∀ n ∈ cfg.ntpSources, ∀ c ∈ (aliasLabel n).toList, c ≠ '"' ∧ c ≠ '\\' ∧ c ≠ '\n') ∧
        (cfg.peers.map PeerEntry.id).Nodup ∧
        (cfg.ntpSources.map fun n => (n.id, aliasLabel n)).Nodup := by
  have hplain : ∀ n : NtpSource, Plain (aliasLabel n).toList ↔
      ∀ c ∈ (aliasLabel n).toList, c ≠ '"' ∧ c ≠ '\\' ∧ c ≠ '\n' := by
    simp [Plain, needsEscape, and_assoc]
  simp only [← hplain]
  constructor
  · intro h
    obtain ⟨ts, t, task, hrun, hsent⟩ := run_response (offsetAnswer_fits (metricsQueries cfg))
    exact of_bodyTaken_offsetAnswer (h ts t task _ hrun hsent)
  · rintro ⟨hplain, hpeers, hntp⟩ ts t task answers _ _
    exact bodyTaken_of_plain hplain hpeers hntp answers

/-- There is such a way to print floats: each as the number that encodes it. -/
example : Nonempty (FloatText F64) := ⟨{
  print := fun v => decimals.print (Encodable.encode v)
  read := fun x => (decimals.read x).bind Encodable.decode
  print_chars := fun v => decimals.print_chars (Encodable.encode v)
  read_print := fun v => by
    rw [decimals.read_print, Option.bind_some, Encodable.encodek]
  parse := fun _ => none }⟩

end Zeitpeer
