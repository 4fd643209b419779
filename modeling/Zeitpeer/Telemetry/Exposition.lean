import Zeitpeer.Framework.Exposition
import Zeitpeer.Telemetry.Metrics

/-!
# The text of the server metrics

The alias of a server, or its host, is put between the quotes of a label as it is. The lines of a
server are read back as its samples exactly if there is nothing to escape in that string, or if
there is no line to read.
-/

namespace Zeitpeer

open Framework Framework.Exposition

/-- How floats are printed and parsed, besides how the format reads them. -/
structure FloatText (V : Type) extends Numerals V where
  parse : String → Option V

variable {V : Type} {floats : FloatText V} {source : NtpSource} {map : List (String × String)}

def parseFloat (floats : FloatText V) (map : List (String × String)) (field : String) : Option V :=
  (map.lookup field).bind floats.parse

/-- The alias of a server, or its host. -/
def aliasLabel (source : NtpSource) : String := source.alias.getD source.host

def ntpLine (floats : FloatText V) (source : NtpSource) (metric : String) (val : V) : String :=
  metric ++ "\x7bntp_id=\"" ++ idLabel source.id ++ "\",alias=\"" ++ aliasLabel source ++
    "\"\x7d " ++ String.ofList (floats.print val) ++ "\n"

/-- The body with the lines of a server: one for each metric that its summary has. -/
def appendNtpText (floats : FloatText V) (body : String) (source : NtpSource)
    (map : List (String × String)) : String :=
  ntpMetrics.foldl (fun body m =>
    match parseFloat floats map m.2 with
    | some val => body ++ ntpLine floats source m.1 val
    | none => body) body

/-- The sample that a line is about. -/
def lineSample (source : NtpSource) (metric : String) (val : V) : Sample V where
  metric := metric.toList
  labels := [("ntp_id".toList, (idLabel source.id).toList),
    ("alias".toList, (aliasLabel source).toList)]
  val := val
  timestamp := none

/-- The metrics of a server that its summary has, with their values. -/
def ntpValues (floats : FloatText V) (map : List (String × String)) : List (String × V) :=
  ntpMetrics.filterMap fun m => (parseFloat floats map m.2).map fun val => (m.1, val)

private theorem toList_appendNtpText (body : String) :
    (appendNtpText floats body source map).toList = body.toList ++
      (ntpValues floats map).flatMap fun m => (ntpLine floats source m.1 m.2).toList := by
  rw [appendNtpText, ntpValues]
  induction ntpMetrics generalizing body with
  | nil => simp
  | cons m metrics ih =>
    rw [List.foldl_cons, List.filterMap_cons, ih]
    cases parseFloat floats map m.2 with
    | none => rfl
    | some val => simp

def labelsText (labels : List (String × String)) : String :=
  if labels.isEmpty then ""
  else "\x7b" ++ ",".intercalate (labels.map fun l => l.1 ++ "=\"" ++ l.2 ++ "\"") ++ "\x7d"

def MetricLine.text (floats : FloatText F64) : MetricLine → String
  | .comment text => text ++ "\n"
  | .sample metric labels val =>
    metric ++ labelsText labels ++ " " ++ String.ofList (floats.print val) ++ "\n"

/-- The text is that of the lines of the server. -/
theorem appendNtpText_eq {floats : FloatText F64} {values : List (String × F64)}
    (hvalues : ∀ field, values.lookup field = parseFloat floats map field) (body : String) :
    appendNtpText floats body source map =
      body ++ String.join ((appendNtpMetrics source values).map (MetricLine.text floats)) := by
  have hline : ∀ metric val, ntpLine floats source metric val = (MetricLine.sample metric
      [("ntp_id", idLabel source.id), ("alias", aliasLabel source)] val).text floats := by
    intro metric val
    apply String.toList_inj.mp
    simp [ntpLine, MetricLine.text, labelsText]
  rw [appendNtpText, appendNtpMetrics, summaryLines]
  induction ntpMetrics generalizing body with
  | nil => simp
  | cons m metrics ih =>
    rw [List.foldl_cons, ih, List.filterMap_cons, hvalues]
    cases parseFloat floats map m.2 with
    | none => rfl
    | some val => simp [String.append_assoc, hline, aliasLabel]

theorem isName_of_ntpMetrics {m : String × String} (hm : m ∈ ntpMetrics) :
    metricChars.isName m.1.toList := by
  have hall : ∀ m ∈ ntpMetrics, metricChars.isName m.1.toList := by decide
  exact hall m hm

private theorem mem_ntpValues {metric : String} {val : V}
    (h : (metric, val) ∈ ntpValues floats map) : metricChars.isName metric.toList := by
  obtain ⟨m, hm, heq⟩ := List.mem_filterMap.mp h
  obtain ⟨_, _, heq⟩ := Option.map_eq_some_iff.mp heq
  obtain ⟨rfl, _⟩ := Prod.mk.inj heq
  exact isName_of_ntpMetrics hm

theorem plain_idLabel (id : UInt32) : Plain (idLabel id).toList := by
  intro c hc
  rw [idLabel, Nat.toList_repr] at hc
  have hdigit := Nat.isDigit_of_mem_toDigits (by decide) (by decide) hc
  rw [needsEscape, Bool.or_eq_false_iff, Bool.or_eq_false_iff]
  refine ⟨⟨?_, ?_⟩, ?_⟩ <;> (rw [decide_eq_false_iff_not]; rintro rfl; contradiction)

private theorem isName_labels (source : NtpSource) (metric : String) (val : V) :
    ∀ p ∈ (lineSample source metric val).labels, labelChars.isName p.1 := by
  intro p hp
  rcases List.mem_pair.mp hp with rfl | rfl <;> rfl

private theorem toList_ntpLine (hplain : Plain (aliasLabel source).toList) (metric : String)
    (val : V) : (ntpLine floats source metric val).toList =
      printLine floats.toNumerals metric.toList (lineSample source metric val).labels val := by
  simp [ntpLine, printLine, printLabels, printPairs, printPair, lineSample,
    escape_of_plain hplain, escape_of_plain (plain_idLabel source.id)]

private theorem parseBody_ntpLine (hplain : Plain (aliasLabel source).toList) {metric : String}
    (hmetric : metricChars.isName metric.toList) (val : V) :
    parseBody floats.toNumerals (ntpLine floats source metric val).toList =
      some [lineSample source metric val] := by
  rw [toList_ntpLine hplain, parseBody_printLine hmetric (isName_labels source metric val)]
  rfl

private theorem isComplete_ntpLine (metric : String) (val : V) :
    isComplete (ntpLine floats source metric val).toList := by
  rw [ntpLine, String.toList_append]
  exact isComplete_iff.mpr (.inr ⟨_, rfl⟩)

private theorem isComplete_lines (values : List (String × V)) :
    isComplete (values.flatMap fun m => (ntpLine floats source m.1 m.2).toList) := by
  induction values with
  | nil => rfl
  | cons m values ih =>
    rw [List.flatMap_cons]
    by_cases hnil : (values.flatMap fun m => (ntpLine floats source m.1 m.2).toList) = []
    · rw [hnil, List.append_nil]
      exact isComplete_ntpLine m.1 m.2
    · rw [isComplete_append hnil]
      exact ih

private theorem parseBody_lines (hplain : Plain (aliasLabel source).toList)
    {values : List (String × V)} (hnames : ∀ m ∈ values, metricChars.isName m.1.toList) :
    parseBody floats.toNumerals
        (values.flatMap fun m => (ntpLine floats source m.1 m.2).toList) =
      some (values.map fun m => lineSample source m.1 m.2) := by
  induction values with
  | nil => rfl
  | cons m values ih =>
    obtain ⟨hname, hnames⟩ := List.forall_mem_cons.mp hnames
    rw [List.flatMap_cons, parseBody_append (isComplete_ntpLine m.1 m.2),
      parseBody_ntpLine hplain hname, ih hnames]
    rfl

/-- A line of a server up to the value of its alias. -/
def lineHead (source : NtpSource) (metric : String) : List Char :=
  metric.toList ++ '\x7b' :: ("ntp_id".toList ++ '=' :: '"' :: ((idLabel source.id).toList ++
    '"' :: ',' :: ("alias".toList ++ ['=', '"'])))

private theorem newline_not_mem_lineHead {metric : String}
    (hmetric : metricChars.isName metric.toList) : '\n' ∉ lineHead source metric := by
  have hid : '\n' ∉ (idLabel source.id).toList :=
    fun hmem => absurd (plain_idLabel source.id _ hmem) (by decide)
  simp [lineHead, newline_not_mem_name rfl rfl hmetric, hid]

private theorem exists_of_parseLine {metric : String} (hmetric : metricChars.isName metric.toList)
    {x : List Char} {val : V} {first rest others : List (Sample V)}
    (h : parseLine floats.toNumerals (lineHead source metric ++ x) = some first)
    (hfirst : lineSample source metric val :: rest = first ++ others) :
    ∃ r, scanValue false x = some ((aliasLabel source).toList, r) := by
  have hmetric' : ∀ y, metricChars.scan (metric.toList ++ '\x7b' :: y) =
      some (metric.toList, '\x7b' :: y) := by
    intro y
    apply NameChars.scan_append hmetric
    rintro c ⟨⟩
    rfl
  have hid := scanValue_escape (idLabel source.id).toList
  rw [escape_of_plain (plain_idLabel source.id)] at hid
  have hhead : lineHead source metric ++ x = metric.toList ++ '\x7b' :: ("ntp_id".toList ++
      '=' :: '"' :: ((idLabel source.id).toList ++ '"' :: ',' :: ("alias".toList ++
        '=' :: '"' :: x))) := by
    simp [lineHead]
  rw [hhead, parseLine_metric hmetric] at h
  obtain ⟨s, hs, rfl⟩ := Option.map_eq_some_iff.mp h
  obtain ⟨rfl, _⟩ := List.cons.inj hfirst
  rw [parseSample, hmetric', Option.bind_eq_bind, Option.bind_some] at hs
  obtain ⟨labels, hlabels, hs⟩ := Option.bind_eq_some_iff.mp hs
  obtain ⟨val', _, hs⟩ := Option.bind_eq_some_iff.mp hs
  obtain ⟨timestamp, _, hs⟩ := Option.bind_eq_some_iff.mp hs
  have hread : labels.1 = (lineSample source metric val).labels :=
    congrArg Sample.labels (Option.some.inj hs)
  have hfuel : ∀ y, ("ntp_id".toList ++ y).length = ("ntp_id".toList.tail ++ y).length + 1 :=
    fun y => rfl
  rw [scanLabels, expect_self rfl] at hlabels
  simp only [scanPairs_name (show labelChars.isName "ntp_id".toList from rfl), hid,
    Option.bind_some, expect_self (show isBlank ',' = false from rfl), hfuel,
    scanPairs_name (show labelChars.isName "alias".toList from rfl)] at hlabels
  obtain ⟨pairs, hpairs, rfl⟩ := Option.map_eq_some_iff.mp hlabels
  obtain ⟨⟨v, r⟩, hscan, hpairs⟩ := Option.bind_eq_some_iff.mp hpairs
  have hfirst : ∃ others, pairs.1 = ("alias".toList, v) :: others := by
    split at hpairs
    · obtain ⟨others, _, rfl⟩ := Option.map_eq_some_iff.mp hpairs
      exact ⟨others.1, rfl⟩
    · obtain ⟨_, _, rfl⟩ := Option.map_eq_some_iff.mp hpairs
      exact ⟨[], rfl⟩
  obtain ⟨others, hothers⟩ := hfirst
  obtain ⟨_, hread⟩ := List.cons.inj hread
  rw [hothers] at hread
  obtain ⟨hpair, _⟩ := List.cons.inj hread
  obtain ⟨_, rfl⟩ := Prod.mk.inj hpair
  exact ⟨r, hscan⟩

/-- The samples are read from the lines only if there is nothing to escape, or no line. -/
theorem plain_of_parseBody {metric : String} (hmetric : metricChars.isName metric.toList) {val : V}
    {x : List Char} {rest : List (Sample V)}
    (h : parseBody floats.toNumerals ((ntpLine floats source metric val).toList ++ x) =
      some (lineSample source metric val :: rest)) : Plain (aliasLabel source).toList := by
  have htext : (ntpLine floats source metric val).toList ++ x = lineHead source metric ++
      ((aliasLabel source).toList ++ '"' :: '\x7d' :: ' ' :: (floats.print val ++ '\n' :: x)) := by
    simp [ntpLine, lineHead]
  have hvalue : '"' ∉ ('\x7d' :: ' ' :: (floats.print val ++ '\n' :: x)).takeWhile
      (· ≠ '\n') := by
    have hprint : ∀ c ∈ floats.print val, decide (c ≠ '\n') = true := fun c hc =>
      decide_eq_true (floats.of_mem_print hc).2.1
    have hquote : '"' ∉ floats.print val := fun hmem => (floats.of_mem_print hmem).2.2.1 rfl
    rw [List.takeWhile_cons_of_pos rfl, List.takeWhile_cons_of_pos rfl,
      List.takeWhile_append_of_pos hprint, List.takeWhile_cons_of_neg (by decide)]
    simp [hquote]
  have hhead : ∀ c ∈ lineHead source metric, decide (c ≠ '\n') = true := by
    intro c hc
    apply decide_eq_true
    rintro rfl
    exact newline_not_mem_lineHead hmetric hc
  obtain ⟨first, others, hline, hfirst⟩ := parseLine_of_parseBody h
  rw [htext, List.takeWhile_append_of_pos hhead] at hline
  obtain ⟨r, hscan⟩ := exists_of_parseLine hmetric hline hfirst
  exact plain_of_scanValue hvalue hscan

/-- Each line is a sample with the id, the alias and the value. -/
def LinesRead (floats : FloatText V) (source : NtpSource) (map : List (String × String)) : Prop :=
  ∀ m ∈ ntpValues floats map,
    parseBody floats.toNumerals (ntpLine floats source m.1 m.2).toList =
      some [lineSample source m.1 m.2]

/-- Between other lines, the body gains the samples of the server and nothing else. -/
def BodyRead (floats : FloatText V) (source : NtpSource) (map : List (String × String)) : Prop :=
  ∀ before after : String, isComplete before.toList →
    parseBody floats.toNumerals (appendNtpText floats before source map ++ after).toList =
      (parseBody floats.toNumerals before.toList).bind fun samples =>
        (parseBody floats.toNumerals after.toList).map fun samples' =>
          samples ++ (ntpValues floats map).map (fun m => lineSample source m.1 m.2) ++ samples'

private theorem linesRead_iff : LinesRead floats source map ↔
    Plain (aliasLabel source).toList ∨ ntpValues floats map = [] := by
  constructor
  · intro h
    cases hvalues : ntpValues floats map with
    | nil => exact .inr rfl
    | cons m values =>
      have hm : m ∈ ntpValues floats map := hvalues ▸ List.mem_cons_self
      have hline := h m hm
      rw [← List.append_nil (ntpLine floats source m.1 m.2).toList] at hline
      exact .inl (plain_of_parseBody (mem_ntpValues hm) hline)
  · rintro (hplain | hnone) m hm
    · exact parseBody_ntpLine hplain (mem_ntpValues hm) m.2
    · rw [hnone] at hm
      contradiction

private theorem bodyRead_of_plain (hplain : Plain (aliasLabel source).toList) :
    BodyRead floats source map := by
  intro before after hbefore
  have hlines : isComplete ((ntpValues floats map).flatMap fun m =>
      (ntpLine floats source m.1 m.2).toList) := isComplete_lines _
  rw [String.toList_append, toList_appendNtpText, List.append_assoc, parseBody_append hbefore,
    parseBody_append hlines, parseBody_lines hplain fun m hm => mem_ntpValues hm]
  cases parseBody floats.toNumerals before.toList with
  | none => rfl
  | some samples =>
    cases parseBody floats.toNumerals after.toList with
    | none => rfl
    | some samples' => simp

private theorem bodyRead_iff : BodyRead floats source map ↔
    Plain (aliasLabel source).toList ∨ ntpValues floats map = [] := by
  constructor
  · intro h
    have halone := h "" "" rfl
    rw [String.append_empty, toList_appendNtpText, String.toList_empty, List.nil_append] at halone
    cases hvalues : ntpValues floats map with
    | nil => exact .inr rfl
    | cons m values =>
      have hm : m ∈ ntpValues floats map := hvalues ▸ List.mem_cons_self
      rw [hvalues, List.flatMap_cons] at halone
      exact .inl (plain_of_parseBody (mem_ntpValues hm) halone)
  · rintro (hplain | hnone)
    · exact bodyRead_of_plain hplain
    · intro before after hbefore
      rw [String.toList_append, toList_appendNtpText, hnone, List.append_assoc,
        parseBody_append hbefore]
      simp

private theorem ntpValues_eq_nil_iff :
    ntpValues floats map = [] ↔ ∀ m ∈ ntpMetrics, parseFloat floats map m.2 = none := by
  rw [ntpValues, List.filterMap_eq_nil_iff]
  simp only [Option.map_eq_none_iff]

/-- The text of a server is read back exactly if its alias, or its host, has no quote, no
backslash and no line feed, or if its summary has no field to print. -/
theorem server_text_read_back (floats : FloatText V) (source : NtpSource)
    (map : List (String × String)) :
    (LinesRead floats source map ↔
        (∀ c ∈ (aliasLabel source).toList, c ≠ '"' ∧ c ≠ '\\' ∧ c ≠ '\n') ∨
          ∀ m ∈ ntpMetrics, parseFloat floats map m.2 = none) ∧
      (BodyRead floats source map ↔
        (∀ c ∈ (aliasLabel source).toList, c ≠ '"' ∧ c ≠ '\\' ∧ c ≠ '\n') ∨
          ∀ m ∈ ntpMetrics, parseFloat floats map m.2 = none) := by
  have hplain : Plain (aliasLabel source).toList ↔
      ∀ c ∈ (aliasLabel source).toList, c ≠ '"' ∧ c ≠ '\\' ∧ c ≠ '\n' := by
    simp [Plain, needsEscape, and_assoc]
  rw [← hplain, ← ntpValues_eq_nil_iff]
  exact ⟨linesRead_iff, bodyRead_iff⟩

/-- Floats that are natural numbers. -/
def decimalFloats : FloatText Nat := ⟨decimals, fun s => readNat s.toList⟩

/-- A server whose alias ends a line and begins another one. -/
def injecting : NtpSource where
  id := 1
  host := "pool.ntp.org"
  «alias» := some "x\"\x7d 5\nzeitpeer_ntp_offset_ns\x7bntp_id=\"2\",alias=\"y"

/-- The one line of the server is read as a sample of it that is not there and a sample of another
server. -/
theorem injecting_alias :
    ntpValues decimalFloats [("offset_ns", "7")] = [("zeitpeer_ntp_offset_ns", 7)] ∧
      parseBody decimals (appendNtpText decimalFloats "" injecting [("offset_ns", "7")]).toList =
        some [
          ⟨"zeitpeer_ntp_offset_ns".toList,
            [("ntp_id".toList, "1".toList), ("alias".toList, "x".toList)], 5, none⟩,
          ⟨"zeitpeer_ntp_offset_ns".toList,
            [("ntp_id".toList, "2".toList), ("alias".toList, "y".toList)], 7, none⟩] ∧
      ¬ LinesRead decimalFloats injecting [("offset_ns", "7")] ∧
      ¬ BodyRead decimalFloats injecting [("offset_ns", "7")] := by
  have hvalues : ntpValues decimalFloats [("offset_ns", "7")] =
      [("zeitpeer_ntp_offset_ns", 7)] := by decide
  have hcut : ¬ (Plain (aliasLabel injecting).toList ∨
      ntpValues decimalFloats [("offset_ns", "7")] = []) := by
    rintro (hplain | hnone)
    · exact absurd (hplain '"' (by decide)) (by decide)
    · rw [hvalues] at hnone
      contradiction
  have htext : (appendNtpText decimalFloats "" injecting [("offset_ns", "7")]).toList =
      printLine decimals "zeitpeer_ntp_offset_ns".toList
          [("ntp_id".toList, "1".toList), ("alias".toList, "x".toList)] 5 ++
        printLine decimals "zeitpeer_ntp_offset_ns".toList
          [("ntp_id".toList, "2".toList), ("alias".toList, "y".toList)] 7 := by
    rw [toList_appendNtpText, hvalues]
    decide +kernel
  refine ⟨hvalues, ?_, mt linesRead_iff.mp hcut, mt bodyRead_iff.mp hcut⟩
  rw [htext, parseBody_append (by decide), parseBody_printLine (by decide) (by decide),
    parseBody_printLine (by decide) (by decide)]
  rfl

end Zeitpeer
