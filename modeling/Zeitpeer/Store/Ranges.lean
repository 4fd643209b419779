import Mathlib.Algebra.Order.Ring.Rat
import Mathlib.Order.Interval.Set.Defs
import Zeitpeer.Store.Shared

/-!
# What numbers the store is for

Every series and every field of a summary is for numbers of a certain range: differences of clock
readings have at most 65 bits and a sign, jitters and scores are not negative, a timeout counts
as one. The store keeps to these ranges if all who write to it do.
-/

namespace Zeitpeer

/-- Differences of clock readings, and means of them. -/
def spans : Set F64 := Set.Icc (-2 ^ 65) (2 ^ 65)

/-- Differences of spans. -/
def gaps : Set F64 := Set.Icc (-2 ^ 66) (2 ^ 66)

/-- How far spans are apart. -/
def jitters : Set F64 := Set.Icc 0 (2 ^ 66)

/-- A gap for each nanosecond, in parts per million. -/
def drifts : Set F64 := Set.Icc (-2 ^ 66 * 10 ^ 6) (2 ^ 66 * 10 ^ 6)

/-- The seconds that an NTP timestamp can stand for. -/
def eraSeconds : Set F64 := Set.Icc (-2208988800) 2085978496

/-- Such seconds and those of a 64-bit reading are not further apart. -/
def deltas : Set F64 := Set.Icc (-2 ^ 35) (2 ^ 35)

def octets : Set F64 := Set.Icc 0 255

/-- What a series is for. -/
def SeriesKey.range : SeriesKey → Set F64
  | .peer _ .offset | .peer _ .delay | .ntp _ .offset | .ntp _ .delay => spans
  | .fused .offset | .fused .delay | .fused .ewma | .phc .systemOffset => spans
  | .peer _ .jitter | .ntp _ .jitter => jitters
  | .peer _ .quality => Set.Ico 0 (2 ^ 32)
  | .ntp _ .quality => octets
  | .peer _ .timeouts => {1}
  | .peer _ .serviceLatency => Set.Icc 0 (2 ^ 64)
  | .ntp _ .driftPpm => drifts
  | .ntp _ .remoteTime => eraSeconds
  | .ntp _ .systemDelta => deltas
  | .ntp _ .offsetVsMean | .phc .fusedDelta => gaps
  | .ntp _ .pingMs | .fused .driftPpm => Set.univ

/-- What a field of a summary is for. -/
def fieldRange : String → Set F64
  | "offset_ns" | "delay_ns" => spans
  | "smoothed_offset_ns" | "raw_offset_ns" | "mean_delay_ns" | "last_ewma_ns" => spans
  | "jitter_ns" => jitters
  | "score" => Set.Icc 0 (2 ^ 67)
  | "stratum" => octets
  | "drift_ppm" => drifts
  | "remote_time_s" => eraSeconds
  | "system_delta_s" => deltas
  | "offset_vs_mean_ns" => gaps
  | "weight_sum" => Set.Ioi 0
  | _ => Set.univ

/-- All fields are in their ranges. -/
def FieldsInRange (fields : List (String × F64)) : Prop := ∀ f ∈ fields, f.2 ∈ fieldRange f.1

def StoreWrite.InRange : StoreWrite → Prop
  | .tsAdd w => w.val ∈ w.key.range
  | .hmSet h => FieldsInRange h.fields

def StoreRead.InRange : StoreRead → Prop
  | .recent key _ _ reply => ∀ e ∈ reply, e.val ∈ key.range
  | .last key reply => ∀ e ∈ reply, e.val ∈ key.range
  | .getAll _ reply => FieldsInRange reply

structure Shared.InRange (m : Shared) : Prop where
  series : ∀ key, ∀ e ∈ m.series key, e.val ∈ key.range
  hashes : ∀ key, FieldsInRange (m.hashes key)

@[simp] theorem fieldsInRange_nil : FieldsInRange [] := by
  simp [FieldsInRange]

@[simp] theorem fieldsInRange_cons (field : String) (val : F64) (fields : List (String × F64)) :
    FieldsInRange ((field, val) :: fields) ↔ val ∈ fieldRange field ∧ FieldsInRange fields :=
  List.forall_mem_cons

@[simp] theorem fieldsInRange_append (fields fields' : List (String × F64)) :
    FieldsInRange (fields ++ fields') ↔ FieldsInRange fields ∧ FieldsInRange fields' :=
  List.forall_mem_append

theorem FieldsInRange.lookup {fields : List (String × F64)} (h : FieldsInRange fields)
    {field : String} {val : F64} (hval : fields.lookup field = some val) :
    val ∈ fieldRange field := by
  obtain ⟨before, after, rfl, _⟩ := List.lookup_eq_some_iff.mp hval
  exact h (field, val) (by simp)

private theorem FieldsInRange.setFields {fields set : List (String × F64)}
    (h : FieldsInRange fields)
    (hset : FieldsInRange set) : FieldsInRange (set.foldl setField fields) := by
  induction set generalizing fields with
  | nil => exact h
  | cons f set ih =>
    obtain ⟨hf, hset⟩ := List.forall_mem_cons.mp hset
    apply ih _ hset
    intro x hx
    rcases List.mem_append.mp hx with hx | hx
    · exact h x (List.mem_of_mem_filter hx)
    · obtain rfl := List.mem_singleton.mp hx
      exact hf

private theorem Shared.InRange.write {m : Shared} (h : m.InRange) {w : StoreWrite}
    (hw : w.InRange) : (m.write w).InRange := by
  cases w with
  | tsAdd w =>
    refine ⟨?_, h.hashes⟩
    intro key e he
    rcases mem_tsAdd he with hold | ⟨rfl, rfl⟩
    · exact h.series key e hold
    · exact hw
  | hmSet set =>
    refine ⟨h.series, ?_⟩
    intro key
    change FieldsInRange (m.hashes.hmSet set key)
    by_cases hkey : key = set.key
    · subst hkey
      rw [Hashes.hmSet, Function.update_self]
      exact (h.hashes set.key).setFields hw
    · rw [Hashes.hmSet, Function.update_of_ne hkey]
      exact h.hashes key

theorem Shared.InRange.writes {m : Shared} (h : m.InRange) {ws : List StoreWrite}
    (hws : ∀ w ∈ ws, w.InRange) : (ws.foldl Shared.write m).InRange := by
  induction ws generalizing m with
  | nil => exact h
  | cons w ws ih =>
    obtain ⟨hw, hws⟩ := List.forall_mem_cons.mp hws
    exact ih (h.write hw) hws

/-- What gets lost does no harm. -/
theorem Shared.InRange.drift {m n : Shared} (h : m.InRange) {d : SharedDrift}
    (hd : ∀ w, d = .write w → w.InRange) (hdrift : m.drift d = some n) : n.InRange := by
  cases d with
  | write w =>
    obtain rfl := Option.some.inj hdrift
    exact h.write (hd w rfl)
  | lose lost gone =>
    refine ⟨?_, ?_⟩
    · intro key e he
      exact h.series key e (mem_series_drift hdrift (by simp) he)
    · obtain rfl := Option.some.inj hdrift
      exact h.hashes
  | unset unset field =>
    obtain rfl := Option.some.inj hdrift
    refine ⟨h.series, ?_⟩
    intro key f hf
    by_cases hkey : key = unset
    · subst hkey
      simp only [Function.update_self] at hf
      exact h.hashes key f (List.mem_of_mem_filter hf)
    · simp only [Function.update_of_ne hkey] at hf
      exact h.hashes key f hf

/-- A reply is made of what the store holds. -/
theorem Shared.InRange.answers {m : Shared} (h : m.InRange) {r : StoreRead}
    (hr : m.answers r = true) : r.InRange := by
  cases r with
  | recent key since limit reply =>
    have hrecent : IsRecent (m.series key) since limit reply := of_decide_eq_true hr
    exact fun e he => h.series key e (hrecent.mem he).1
  | last key reply =>
    have hlast : IsLast (m.series key) reply := of_decide_eq_true hr
    intro e he
    obtain rfl := Option.mem_def.mp he
    exact h.series key e hlast.1
  | getAll key reply =>
    obtain rfl : m.hashes key = reply := of_decide_eq_true hr
    exact h.hashes key

end Zeitpeer
