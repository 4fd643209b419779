import Mathlib.Data.List.TakeWhile
import Mathlib.Tactic.Common

/-!
# The text format of metrics

A body is a sequence of lines. A line is blank, a comment, or a sample: a metric, labels in braces,
a value and perhaps a timestamp. A label's value stands between quotes, and the quotes, backslashes
and line feeds of it are escaped. A body of printed samples is read back as those samples; a value
that was printed without the escapes is read back only if it has nothing to escape.
-/

namespace Framework

namespace Exposition

abbrev Text := List Char

def isBlank (c : Char) : Bool := c = ' ' || c = '\t'

def skipBlanks (x : Text) : Text := x.dropWhile isBlank

def token (x : Text) : Text := x.takeWhile fun c => !isBlank c

def afterToken (x : Text) : Text := skipBlanks (x.dropWhile fun c => !isBlank c)

/-- The text after a character, which blanks may precede. -/
def expect (c : Char) (x : Text) : Option Text :=
  match skipBlanks x with
  | d :: y => if d = c then some y else none
  | [] => none

/-- The characters of a name: the first one, and the others. -/
structure NameChars where
  first : Char → Bool
  more : Char → Bool

def labelChars : NameChars := ⟨fun c => c.isAlpha || c = '_', fun c => c.isAlphanum || c = '_'⟩

def metricChars : NameChars :=
  ⟨fun c => labelChars.first c || c = ':', fun c => labelChars.more c || c = ':'⟩

def NameChars.isName (chars : NameChars) : Text → Bool
  | c :: x => chars.first c && x.all chars.more
  | [] => false

def NameChars.scan (chars : NameChars) : Text → Option (Text × Text)
  | c :: x => if chars.first c then some (c :: x.takeWhile chars.more, x.dropWhile chars.more)
    else none
  | [] => none

def needsEscape (c : Char) : Bool := c = '"' || c = '\\' || c = '\n'

def escapeChar (c : Char) : Text :=
  if c = '\n' then ['\\', 'n'] else if needsEscape c then ['\\', c] else [c]

def escape (x : Text) : Text := x.flatMap escapeChar

/-- There is nothing to escape. -/
def Plain (x : Text) : Prop := ∀ c ∈ x, needsEscape c = false

def unescapeChar (c : Char) : Option Char :=
  if c = 'n' then some '\n' else if c = '"' || c = '\\' then some c else none

/-- The value up to the closing quote, and what follows it, perhaps after a backslash. -/
def scanValue : Bool → Text → Option (Text × Text)
  | _, [] => none
  | true, c :: x => (unescapeChar c).bind fun d => (scanValue false x).map fun r => (d :: r.1, r.2)
  | false, c :: x =>
    if c = '"' then some ([], x)
    else if c = '\\' then scanValue true x
    else if c = '\n' then none
    else (scanValue false x).map fun r => (c :: r.1, r.2)

def scanPair (x : Text) : Option ((Text × Text) × Text) := do
  let name ← labelChars.scan (skipBlanks x)
  let y ← expect '=' name.2
  let z ← expect '"' y
  let val ← scanValue false z
  some ((name.1, val.1), val.2)

/-- The labels up to the closing brace, which a comma may precede. -/
def scanPairs : Nat → Text → Option (List (Text × Text) × Text)
  | 0, _ => none
  | n + 1, x =>
    match expect '}' x with
    | some y => some ([], y)
    | none => do
      let pair ← scanPair x
      match expect ',' pair.2 with
      | some y => (scanPairs n y).map fun r => (pair.1 :: r.1, r.2)
      | none => (expect '}' pair.2).map fun y => ([pair.1], y)

def scanLabels (x : Text) : Option (List (Text × Text) × Text) :=
  match expect '{' x with
  | some y => scanPairs (y.length + 1) y
  | none => some ([], x)

/-- How the values are printed and read. What is printed is one token, and it is read back. -/
structure Numerals (V : Type) where
  print : V → Text
  read : Text → Option V
  print_chars : ∀ v, ∀ c ∈ print v, c.isAlphanum || c = '+' || c = '-' || c = '.'
  read_print : ∀ v, read (print v) = some v

structure Sample (V : Type) where
  metric : Text
  labels : List (Text × Text)
  val : V
  timestamp : Option Int
  deriving DecidableEq

variable {V : Type} (numerals : Numerals V)

def readNat (x : Text) : Option Nat :=
  if !x.isEmpty && x.all Char.isDigit then some (Nat.ofDigitChars 10 x 0) else none

def readInt : Text → Option Int
  | '-' :: x => (readNat x).map fun n => -(n : Int)
  | x => (readNat x).map fun n => (n : Int)

/-- What follows a value: nothing, or a timestamp. -/
def readTimestamp (x : Text) : Option (Option Int) :=
  if x.isEmpty then some none
  else if (afterToken x).isEmpty then (readInt (token x)).map some
  else none

def parseSample (x : Text) : Option (Sample V) := do
  let metric ← metricChars.scan x
  let labels ← scanLabels metric.2
  let val ← numerals.read (token (skipBlanks labels.2))
  let timestamp ← readTimestamp (afterToken (skipBlanks labels.2))
  some ⟨metric.1, labels.1, val, timestamp⟩

def parseLine (x : Text) : Option (List (Sample V)) :=
  match skipBlanks x with
  | [] => some []
  | c :: y => if c = '#' then some [] else (parseSample numerals (c :: y)).map fun s => [s]

/-- Every line of the body ends with a line feed. -/
def isComplete (x : Text) : Bool := x.getLast?.all fun c => c = '\n'

def parseBody (x : Text) : Option (List (Sample V)) :=
  if isComplete x then ((x.splitOn '\n').mapM (parseLine numerals)).map List.flatten else none

def printPair (p : Text × Text) : Text := p.1 ++ '=' :: '"' :: escape p.2 ++ ['"']

def printPairs : List (Text × Text) → Text
  | [] => ['}']
  | [p] => printPair p ++ ['}']
  | p :: ps => printPair p ++ ',' :: printPairs ps

def printLabels (labels : List (Text × Text)) : Text :=
  if labels.isEmpty then [] else '{' :: printPairs labels

def printLine (metric : Text) (labels : List (Text × Text)) (val : V) : Text :=
  metric ++ printLabels labels ++ ' ' :: numerals.print val ++ ['\n']

theorem escape_of_plain {x : Text} (h : Plain x) : escape x = x := by
  induction x with
  | nil => rfl
  | cons c x ih =>
    have hc : needsEscape c = false := h c List.mem_cons_self
    have hline : c ≠ '\n' := by
      rintro rfl
      contradiction
    rw [escape, List.flatMap_cons, escapeChar, if_neg hline, hc]
    exact congrArg (c :: ·) (ih fun d hd => h d (List.mem_cons_of_mem c hd))

private theorem scanValue_escapeChar (c : Char) (x : Text) :
    scanValue false (escapeChar c ++ x) =
      (scanValue false x).map fun r => (c :: r.1, r.2) := by
  by_cases hline : c = '\n'
  · subst hline
    rfl
  · rw [escapeChar, if_neg hline]
    cases hc : needsEscape c with
    | true =>
      have hcases : c = '"' ∨ c = '\\' := by simpa [needsEscape, hline] using hc
      rcases hcases with rfl | rfl <;> rfl
    | false =>
      simp only [needsEscape, Bool.or_eq_false_iff, decide_eq_false_iff_not] at hc
      simp [scanValue, hc]

theorem scanValue_escape (v r : Text) : scanValue false (escape v ++ '"' :: r) = some (v, r) := by
  induction v with
  | nil => rfl
  | cons c v ih =>
    rw [escape, List.flatMap_cons, List.append_assoc, scanValue_escapeChar, ← escape, ih]
    rfl

/-- A value is not longer than what it is read from, and as long only if it has nothing that is
escaped. -/
private theorem exists_of_scanValue {escaped : Bool} {x v r : Text}
    (h : scanValue escaped x = some (v, r)) :
    ∃ u, x = u ++ '"' :: r ∧ v.length ≤ u.length ∧
      (escaped = false → v.length = u.length → u = v ∧ Plain v) := by
  fun_induction scanValue escaped x generalizing v r with
  | case1 => contradiction
  | case2 c x ih =>
    obtain ⟨d, -, hd⟩ := Option.bind_eq_some_iff.mp h
    obtain ⟨⟨w, r'⟩, hw, heq⟩ := Option.map_eq_some_iff.mp hd
    obtain ⟨rfl, rfl⟩ := Prod.mk.inj heq
    obtain ⟨u, rfl, hle, -⟩ := ih hw
    exact ⟨c :: u, rfl, Nat.succ_le_succ hle, by simp⟩
  | case3 x =>
    obtain ⟨rfl, rfl⟩ := Prod.mk.inj (Option.some.inj h)
    exact ⟨[], rfl, Nat.le_refl _, fun _ _ => ⟨rfl, by simp [Plain]⟩⟩
  | case4 x _ ih =>
    obtain ⟨u, rfl, hle, -⟩ := ih h
    refine ⟨'\\' :: u, rfl, Nat.le_succ_of_le hle, ?_⟩
    intro _ hlength
    simp only [List.length_cons] at hlength
    omega
  | case5 => contradiction
  | case6 c x hquote hslash hline ih =>
    obtain ⟨⟨w, r'⟩, hw, heq⟩ := Option.map_eq_some_iff.mp h
    obtain ⟨rfl, rfl⟩ := Prod.mk.inj heq
    obtain ⟨u, rfl, hle, hplain⟩ := ih hw
    refine ⟨c :: u, rfl, Nat.succ_le_succ hle, ?_⟩
    intro _ hlength
    obtain ⟨rfl, hu⟩ := hplain rfl (Nat.succ.inj hlength)
    exact ⟨rfl, List.forall_mem_cons.mpr ⟨by simp [needsEscape, hquote, hslash, hline], hu⟩⟩

/-- A value that was printed without the escapes is read back from its line only if it has nothing
to escape. -/
theorem plain_of_scanValue {v tail r : Text} (htail : '"' ∉ tail.takeWhile (· ≠ '\n'))
    (h : scanValue false ((v ++ '"' :: tail).takeWhile (· ≠ '\n')) = some (v, r)) : Plain v := by
  obtain ⟨u, hu, hle, hplain⟩ := exists_of_scanValue h
  by_cases hline : ∀ c ∈ v, c ≠ '\n'
  · have hwhole : (v ++ '"' :: tail).takeWhile (· ≠ '\n') =
        v ++ '"' :: tail.takeWhile (· ≠ '\n') := by
      rw [List.takeWhile_append_of_pos (by simpa using hline)]
      rfl
    rw [hwhole] at hu
    rcases List.append_eq_append_iff.mp hu with ⟨w, rfl, hw⟩ | ⟨w, rfl, hw⟩
    · cases w with
      | nil => exact (hplain rfl (by simp)).2
      | cons c w =>
        rw [List.cons_append] at hw
        obtain ⟨_, hw⟩ := List.cons.inj hw
        exact absurd (hw ▸ List.mem_append_right w List.mem_cons_self) htail
    · have hnil : w = [] := by
        rw [List.length_append] at hle
        exact List.length_eq_zero_iff.mp (by omega)
      exact (hplain rfl (by simp [hnil])).2
  · -- the line ends within the value
    have hshort : ((v ++ '"' :: tail).takeWhile (· ≠ '\n')).length ≤ v.length := by
      rw [List.takeWhile_append, if_neg]
      · exact (List.takeWhile_sublist _).length_le
      · intro hlength
        have hall := (List.takeWhile_sublist _).eq_of_length hlength
        exact hline (by simpa using List.takeWhile_eq_self_iff.mp hall)
    rw [hu, List.length_append, List.length_cons] at hshort
    omega

/-! ## What is printed is read back -/

variable {V : Type} {numerals : Numerals V}

theorem NameChars.scan_append {chars : NameChars} {n r : Text} (hn : chars.isName n)
    (hr : ∀ c ∈ r.head?, chars.more c = false) : chars.scan (n ++ r) = some (n, r) := by
  cases n with
  | nil => contradiction
  | cons c n =>
    obtain ⟨hfirst, hmore⟩ := Bool.and_eq_true_iff.mp hn
    have hall : ∀ d ∈ n, chars.more d := List.all_eq_true.mp hmore
    have hstop : r.takeWhile chars.more = [] ∧ r.dropWhile chars.more = r := by
      cases r with
      | nil => exact ⟨rfl, rfl⟩
      | cons d r => simp [hr d rfl]
    rw [List.cons_append, NameChars.scan, if_pos hfirst, List.takeWhile_append_of_pos hall,
      List.dropWhile_append_of_pos hall, hstop.1, hstop.2, List.append_nil]

private theorem skipBlanks_cons {c : Char} (hc : isBlank c = false) (x : Text) :
    skipBlanks (c :: x) = c :: x := by
  rw [skipBlanks, List.dropWhile_cons, hc]
  rfl

theorem expect_self {c : Char} (hc : isBlank c = false) (x : Text) :
    expect c (c :: x) = some x := by
  rw [expect, skipBlanks_cons hc]
  exact if_pos rfl

private theorem expect_other {c d : Char} (hd : isBlank d = false) (hne : d ≠ c) (x : Text) :
    expect c (d :: x) = none := by
  rw [expect, skipBlanks_cons hd]
  exact if_neg hne

private theorem of_first_metric {c : Char} (h : metricChars.first c) :
    isBlank c = false ∧ c ≠ '#' ∧ c ≠ '}' := by
  refine ⟨?_, ?_, ?_⟩
  · rw [isBlank, Bool.or_eq_false_iff, decide_eq_false_iff_not, decide_eq_false_iff_not]
    constructor <;> (rintro rfl; contradiction)
  · rintro rfl
    contradiction
  · rintro rfl
    contradiction

private theorem of_first_label {c : Char} (h : labelChars.first c) :
    isBlank c = false ∧ c ≠ '#' ∧ c ≠ '}' :=
  of_first_metric (Bool.or_eq_true_iff.mpr (.inl h))

private theorem exists_cons_of_isName {chars : NameChars} {n : Text} (hn : chars.isName n) :
    ∃ c y, n = c :: y ∧ chars.first c := by
  cases n with
  | nil => contradiction
  | cons c y => exact ⟨c, y, rfl, (Bool.and_eq_true_iff.mp hn).1⟩

private theorem scanPair_name {n : Text} (hn : labelChars.isName n) (x : Text) :
    scanPair (n ++ '=' :: '"' :: x) =
      (scanValue false x).map fun r => ((n, r.1), r.2) := by
  have hskip : skipBlanks (n ++ '=' :: '"' :: x) = n ++ '=' :: '"' :: x := by
    obtain ⟨c, y, rfl, hc⟩ := exists_cons_of_isName hn
    exact skipBlanks_cons (of_first_label hc).1 _
  have hscan : labelChars.scan (n ++ '=' :: '"' :: x) = some (n, '=' :: '"' :: x) := by
    apply NameChars.scan_append hn
    rintro c ⟨⟩
    rfl
  rw [scanPair, hskip, hscan]
  simp only [Option.bind_eq_bind, Option.bind_some, expect_self (show isBlank '=' = false from rfl),
    expect_self (show isBlank '"' = false from rfl)]
  cases scanValue false x <;> rfl

/-- A pair is read before the ones that follow it. -/
theorem scanPairs_name {n : Text} (hn : labelChars.isName n) (k : Nat) (x : Text) :
    scanPairs (k + 1) (n ++ '=' :: '"' :: x) = (scanValue false x).bind fun r =>
      match expect ',' r.2 with
      | some y => (scanPairs k y).map fun rest => ((n, r.1) :: rest.1, rest.2)
      | none => (expect '}' r.2).map fun y => ([(n, r.1)], y) := by
  have hclose : expect '}' (n ++ '=' :: '"' :: x) = none := by
    obtain ⟨c, y, rfl, hc⟩ := exists_cons_of_isName hn
    exact expect_other (of_first_label hc).1 (of_first_label hc).2.2 _
  rw [scanPairs, hclose]
  simp only [scanPair_name hn]
  cases scanValue false x <;> rfl

private theorem scanPairs_printPairs {pairs : List (Text × Text)}
    (hnames : ∀ p ∈ pairs, labelChars.isName p.1) {k : Nat} (hk : pairs.length < k) (r : Text) :
    scanPairs k (printPairs pairs ++ r) = some (pairs, r) := by
  induction pairs generalizing k with
  | nil =>
    obtain ⟨k, rfl⟩ := Nat.exists_eq_add_one.mpr hk
    rw [scanPairs]
    rfl
  | cons p pairs ih =>
    obtain ⟨k, rfl⟩ := Nat.exists_eq_add_one.mpr (Nat.zero_lt_of_lt hk)
    obtain ⟨hname, hnames⟩ := List.forall_mem_cons.mp hnames
    have hpair : ∀ x, printPair p ++ x = p.1 ++ '=' :: '"' :: (escape p.2 ++ '"' :: x) := by
      intro x
      simp [printPair]
    cases pairs with
    | nil =>
      rw [printPairs, List.append_assoc, hpair, scanPairs_name hname, scanValue_escape]
      rfl
    | cons q pairs =>
      rw [printPairs, List.append_assoc, hpair, scanPairs_name hname, List.cons_append,
        scanValue_escape]
      simp only [Option.bind_some, expect_self (show isBlank ',' = false from rfl),
        ih hnames (Nat.lt_of_succ_lt_succ hk), Option.map_some]
      · intro h
        contradiction

private theorem length_le_printPairs (pairs : List (Text × Text)) :
    pairs.length ≤ (printPairs pairs).length := by
  induction pairs with
  | nil => exact Nat.zero_le _
  | cons p pairs ih =>
    cases pairs with
    | nil =>
      simp only [printPairs, printPair, List.length_append, List.length_cons]
      omega
    | cons q pairs =>
      simp only [printPairs, List.length_append, List.length_cons] at ih ⊢
      omega

/-- A character of a printed value has no other meaning. -/
theorem Numerals.of_mem_print {v : V} {c : Char} (hc : c ∈ numerals.print v) :
    isBlank c = false ∧ c ≠ '\n' ∧ c ≠ '"' ∧ c ≠ '{' := by
  have hchar := numerals.print_chars v c hc
  refine ⟨?_, ?_, ?_, ?_⟩
  · rw [isBlank, Bool.or_eq_false_iff, decide_eq_false_iff_not, decide_eq_false_iff_not]
    constructor <;> (rintro rfl; contradiction)
  all_goals rintro rfl; contradiction

private theorem skipBlanks_print (v : V) : skipBlanks
    (' ' :: numerals.print v) = numerals.print v := by
  have hskip : skipBlanks (numerals.print v) = numerals.print v := by
    cases hv : numerals.print v with
    | nil => rfl
    | cons c x => exact skipBlanks_cons (numerals.of_mem_print (hv ▸ List.mem_cons_self)).1 x
  rw [skipBlanks, List.dropWhile_cons_of_pos rfl, ← skipBlanks, hskip]

private theorem scanLabels_printLabels {labels : List (Text × Text)}
    (hnames : ∀ p ∈ labels, labelChars.isName p.1) (v : V) :
    scanLabels (printLabels labels ++ ' ' :: numerals.print v) =
      some (labels, ' ' :: numerals.print v) := by
  cases labels with
  | nil =>
    have hopen : expect '{' (' ' :: numerals.print v) = none := by
      rw [expect, skipBlanks_print]
      cases hv : numerals.print v with
      | nil => rfl
      | cons c x => exact if_neg (numerals.of_mem_print (hv ▸ List.mem_cons_self)).2.2.2
    rw [printLabels, scanLabels]
    exact hopen ▸ rfl
  | cons p labels =>
    have hlength := length_le_printPairs (p :: labels)
    have hprint : printLabels (p :: labels) = '{' :: printPairs (p :: labels) := rfl
    rw [hprint, scanLabels, List.cons_append, expect_self rfl]
    refine scanPairs_printPairs hnames ?_ _
    rw [List.length_append]
    omega

private theorem metricChars_more_head {labels : List (Text × Text)} {x : Text} :
    ∀ c ∈ (printLabels labels ++ ' ' :: x).head?, metricChars.more c = false := by
  cases labels <;> (rintro c ⟨⟩; rfl)

theorem parseLine_metric {metric : Text} (hmetric : metricChars.isName metric) (x : Text) :
    parseLine numerals (metric ++ x) = (parseSample numerals (metric ++ x)).map fun s => [s] := by
  obtain ⟨c, y, rfl, hc⟩ := exists_cons_of_isName hmetric
  rw [parseLine, List.cons_append, skipBlanks_cons (of_first_metric hc).1]
  exact if_neg (of_first_metric hc).2.1

@[simp] theorem parseLine_nil : parseLine numerals [] = some [] := rfl

/-- A printed sample, without the line feed. -/
theorem parseLine_sample {metric : Text} (hmetric : metricChars.isName metric)
    {labels : List (Text × Text)} (hnames : ∀ p ∈ labels, labelChars.isName p.1) (v : V) :
    parseLine numerals (metric ++ (printLabels labels ++ ' ' :: numerals.print v)) =
      some [⟨metric, labels, v, none⟩] := by
  have htoken : token (numerals.print v) = numerals.print v := by
    apply List.takeWhile_eq_self_iff.mpr
    intro c hc
    rw [(numerals.of_mem_print hc).1]
    rfl
  have hafter : afterToken (numerals.print v) = [] := by
    have hdrop : (numerals.print v).dropWhile (fun c => !isBlank c) = [] := by
      apply List.dropWhile_eq_nil_iff.mpr
      intro c hc
      rw [(numerals.of_mem_print hc).1]
      rfl
    rw [afterToken, hdrop]
    rfl
  rw [parseLine_metric hmetric, parseSample, NameChars.scan_append hmetric metricChars_more_head]
  simp only [Option.bind_eq_bind, Option.bind_some, scanLabels_printLabels hnames, skipBlanks_print,
    htoken, hafter, numerals.read_print, readTimestamp, List.isEmpty_nil, if_true, Option.map_some]

theorem isComplete_append {x y : Text} (hy : y ≠ []) : isComplete (x ++ y) = isComplete y := by
  obtain ⟨z, c, rfl⟩ := List.eq_nil_or_concat y |>.resolve_left hy
  rw [List.concat_eq_append, ← List.append_assoc, isComplete, isComplete, List.getLast?_concat,
    List.getLast?_concat]

theorem isComplete_iff {x : Text} : isComplete x = true ↔ x = [] ∨ ∃ y, x = y ++ ['\n'] := by
  constructor
  · intro h
    rcases List.eq_nil_or_concat x with rfl | ⟨y, c, rfl⟩
    · exact .inl rfl
    · rw [isComplete, List.concat_eq_append, List.getLast?_concat] at h
      exact .inr ⟨y, by simpa using h⟩
  · rintro (rfl | ⟨y, rfl⟩)
    · rfl
    · rw [isComplete, List.getLast?_concat]
      rfl

/-- Complete lines are read on their own. -/
theorem parseBody_append {x : Text} (hx : isComplete x) (y : Text) :
    parseBody numerals (x ++ y) =
      (parseBody numerals x).bind fun s => (parseBody numerals y).map (s ++ ·) := by
  rcases isComplete_iff.mp hx with rfl | ⟨z, rfl⟩
  · have hnil : parseBody numerals [] = some [] := rfl
    rw [hnil, List.nil_append]
    simp
  · have hcomplete : isComplete (z ++ ['\n'] ++ y) = isComplete y := by
      cases y with
      | nil => rw [List.append_nil, hx]; rfl
      | cons c y => exact isComplete_append (by simp)
    have hsplit : (z ++ ['\n'] ++ y).splitOn '\n' = z.splitOn '\n' ++ y.splitOn '\n' := by
      rw [List.append_assoc, List.singleton_append, List.splitOn_append_cons_self]
    have hself : (z ++ ['\n']).splitOn '\n' = z.splitOn '\n' ++ [[]] := by
      rw [List.splitOn_append_cons_self]
      rfl
    rw [parseBody, parseBody, parseBody, hcomplete, hx, hsplit, hself, List.mapM_append,
      List.mapM_append]
    cases (z.splitOn '\n').mapM (parseLine numerals) with
    | none => cases isComplete y <;> rfl
    | some a =>
      cases hy : isComplete y with
      | false => rfl
      | true =>
        cases (y.splitOn '\n').mapM (parseLine numerals) with
        | none => rfl
        | some b => simp

theorem parseBody_line {x : Text} (hx : '\n' ∉ x) :
    parseBody numerals (x ++ ['\n']) = parseLine numerals x := by
  have hcomplete : isComplete (x ++ ['\n']) = true := isComplete_iff.mpr (.inr ⟨x, rfl⟩)
  have hsplit : (x ++ ['\n']).splitOn '\n' = [x, []] := by
    rw [List.splitOn_append_cons_self, List.splitOn_eq_singleton hx]
    rfl
  rw [parseBody, hcomplete, hsplit]
  cases hline : parseLine numerals x with
  | none => simp [hline]
  | some s => simp [hline]

/-- The first line is read first. -/
theorem parseLine_of_parseBody {x : Text} {samples : List (Sample V)}
    (h : parseBody numerals x = some samples) :
    ∃ first rest, parseLine numerals (x.takeWhile (· ≠ '\n')) = some first ∧
      samples = first ++ rest := by
  have hsplit : ∃ lines, x.splitOn '\n' = x.takeWhile (· ≠ '\n') :: lines := by
    have hfirst : '\n' ∉ x.takeWhile (· ≠ '\n') := by
      intro hmem
      simpa using List.mem_takeWhile_imp hmem
    have hx := List.takeWhile_append_dropWhile (p := (· ≠ '\n')) (l := x)
    cases hrest : x.dropWhile (· ≠ '\n') with
    | nil =>
      rw [hrest, List.append_nil] at hx
      exact ⟨[], by rw [hx] at hfirst ⊢; exact List.splitOn_eq_singleton hfirst⟩
    | cons c rest =>
      have hc : c = '\n' := by
        have hhead := List.head?_dropWhile_not (· ≠ '\n') x
        rw [hrest] at hhead
        simpa using hhead
      subst hc
      rw [hrest] at hx
      exact ⟨rest.splitOn '\n', by
        rw [← List.splitOn_append_cons_self_of_not_mem hfirst, hx]⟩
  obtain ⟨lines, hlines⟩ := hsplit
  rw [parseBody, hlines] at h
  split at h
  · obtain ⟨all, hall, rfl⟩ := Option.map_eq_some_iff.mp h
    rw [List.mapM_cons] at hall
    obtain ⟨first, hfirst, hall⟩ := Option.bind_eq_some_iff.mp hall
    obtain ⟨rest, _, hall⟩ := Option.bind_eq_some_iff.mp hall
    obtain rfl := Option.some.inj hall
    exact ⟨first, rest.flatten, hfirst, rfl⟩
  · contradiction

theorem newline_not_mem_name {chars : NameChars} (hfirst : chars.first '\n' = false)
    (hmore : chars.more '\n' = false) {n : Text} (hn : chars.isName n) : '\n' ∉ n := by
  cases n with
  | nil => exact List.not_mem_nil
  | cons c n =>
    obtain ⟨hc, hn⟩ := Bool.and_eq_true_iff.mp hn
    intro hmem
    rcases List.mem_cons.mp hmem with rfl | hmem
    · rw [hc] at hfirst
      contradiction
    · rw [List.all_eq_true.mp hn _ hmem] at hmore
      contradiction

private theorem newline_not_mem_escape (v : Text) : '\n' ∉ escape v := by
  intro hmem
  obtain ⟨c, _, hc⟩ := List.mem_flatMap.mp hmem
  by_cases hline : c = '\n'
  · subst hline
    simp [escapeChar] at hc
  · rw [escapeChar, if_neg hline] at hc
    split at hc <;> simp [Ne.symm hline] at hc

private theorem newline_not_mem_printPairs {pairs : List (Text × Text)}
    (hnames : ∀ p ∈ pairs, labelChars.isName p.1) : '\n' ∉ printPairs pairs := by
  have hpair : ∀ p : Text × Text, labelChars.isName p.1 → '\n' ∉ printPair p := by
    intro p hp
    simp [printPair, newline_not_mem_escape, newline_not_mem_name rfl rfl hp]
  induction pairs with
  | nil => simp [printPairs]
  | cons p pairs ih =>
    obtain ⟨hname, hnames⟩ := List.forall_mem_cons.mp hnames
    cases pairs with
    | nil => simp [printPairs, hpair p hname]
    | cons q pairs => simp [printPairs, hpair p hname, ih hnames]

private theorem newline_not_mem_print (v : V) : '\n' ∉ numerals.print v :=
  fun hmem => (numerals.of_mem_print hmem).2.1 rfl

/-- A printed line is read back. -/
theorem parseBody_printLine {metric : Text} (hmetric : metricChars.isName metric)
    {labels : List (Text × Text)} (hnames : ∀ p ∈ labels, labelChars.isName p.1) (v : V) :
    parseBody numerals (printLine numerals metric labels v) =
      some [⟨metric, labels, v, none⟩] := by
  have hlabels : '\n' ∉ printLabels labels := by
    cases labels with
    | nil => exact List.not_mem_nil
    | cons p labels =>
      have hprint : printLabels (p :: labels) = '{' :: printPairs (p :: labels) := rfl
      simp [hprint, newline_not_mem_printPairs hnames]
  have hline : '\n' ∉ metric ++ (printLabels labels ++ ' ' :: numerals.print v) := by
    simp [newline_not_mem_name rfl rfl hmetric, hlabels, newline_not_mem_print]
  have hprint : printLine numerals metric labels v =
      metric ++ (printLabels labels ++ ' ' :: numerals.print v) ++ ['\n'] := by
    simp [printLine]
  rw [hprint, parseBody_line hline, parseLine_sample hmetric hnames]

theorem readNat_repr (n : Nat) : readNat n.repr.toList = some n := by
  have hdigits : (Nat.toDigits 10 n).all Char.isDigit = true :=
    List.all_eq_true.mpr fun c hc => Nat.isDigit_of_mem_toDigits (by decide) (by decide) hc
  have hne : (Nat.toDigits 10 n).isEmpty = false :=
    List.isEmpty_eq_false_iff.mpr Nat.toDigits_ne_nil
  rw [readNat, Nat.toList_repr, hdigits, hne, Nat.ofDigitChars_ten_toDigits]
  rfl

def decimals : Numerals Nat where
  print n := n.repr.toList
  read := readNat
  print_chars n c hc := by
    rw [Nat.toList_repr] at hc
    have hdigit := Nat.isDigit_of_mem_toDigits (by decide) (by decide) hc
    simp [Char.isAlphanum, hdigit]
  read_print := readNat_repr

end Exposition

end Framework
