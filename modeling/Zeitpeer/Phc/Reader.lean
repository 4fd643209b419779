import Mathlib.Data.Int.Basic

/-!
# Clock sources

`now_ns` reads the configured hardware clock when its device opens and the TAI clock of the
kernel otherwise; only when that cannot be read does it take CLOCK_REALTIME.
-/

namespace Zeitpeer

inductive ClockId where
  | realtime | tai | phc
  deriving DecidableEq, Repr

/-- What opening the device and `clock_gettime` return at one moment. -/
structure Clocks where
  opens : Bool
  gettime : ClockId → Option UInt64

/-- `phc_now_ns`: an error of the open hardware clock is passed on, a device that does not
open counts as absent. -/
def phcNowNs (device : Option String) (c : Clocks) : Option (Option UInt64) :=
  match device with
  | none => some none
  | some _ => if c.opens then (c.gettime .phc).map some else some none

def fallbackClockId : ClockId := .tai

def nowNs (device : Option String) (c : Clocks) : Option UInt64 :=
  match phcNowNs device c with
  | none => none
  | some (some ns) => some ns
  | some none => (c.gettime fallbackClockId).or (c.gettime .realtime)

def systemNowNs (c : Clocks) : Option UInt64 := c.gettime .realtime

/-- PHC minus system time, if there is a hardware clock; the system clock is read second. -/
def phcSystemOffset (device : Option String) (c c' : Clocks) : Option (Option Int) :=
  match phcNowNs device c with
  | none => none
  | some none => some none
  | some (some phc) => (systemNowNs c').map fun system => some ((phc.toNat : Int) - system.toNat)

/-- Clocks of a machine on which nothing can be read. -/
def Clocks.unreadable : Clocks := { opens := false, gettime := fun _ => none }

theorem phcSystemOffset_unreadable (device : Option String) :
    phcSystemOffset device .unreadable .unreadable = some none := by
  cases device <;> rfl

/-- With the kernel's TAI clock set, a node without a usable hardware clock reads TAI. -/
theorem nowNs_tai {device : Option String} {c : Clocks} {ns : UInt64}
    (hphc : phcNowNs device c = some none) (htai : c.gettime .tai = some ns) :
    nowNs device c = some ns := by
  simp [nowNs, hphc, fallbackClockId, htai]

/-- The clock whose value `now_ns` returns. -/
def nowClock (device : Option String) (c : Clocks) : Option ClockId :=
  if device.isSome && c.opens then (c.gettime .phc).map fun _ => .phc
  else if (c.gettime fallbackClockId).isSome then some fallbackClockId
  else (c.gettime .realtime).map fun _ => .realtime

/-- The clock that is chosen has answered. -/
theorem nowClock_answers {device : Option String} {c : Clocks} {k : ClockId}
    (h : nowClock device c = some k) : ∃ ns, c.gettime k = some ns := by
  unfold nowClock at h
  split at h
  · obtain ⟨ns, hns, rfl⟩ := Option.map_eq_some_iff.mp h
    exact ⟨ns, hns⟩
  · split at h
    · rename_i htai
      obtain rfl := Option.some.inj h
      exact Option.isSome_iff_exists.mp htai
    · obtain ⟨ns, hns, rfl⟩ := Option.map_eq_some_iff.mp h
      exact ⟨ns, hns⟩

theorem nowNs_eq (device : Option String) (c : Clocks) :
    nowNs device c = (nowClock device c).bind c.gettime := by
  have hfallback : (c.gettime fallbackClockId).or (c.gettime .realtime) =
      (if (c.gettime fallbackClockId).isSome then some fallbackClockId
        else (c.gettime .realtime).map fun _ => ClockId.realtime).bind c.gettime := by
    cases htai : c.gettime fallbackClockId with
    | none => cases hreal : c.gettime .realtime <;> simp [hreal]
    | some ns => simp [htai]
  cases device with
  | none => simpa [nowNs, phcNowNs, nowClock] using hfallback
  | some path =>
    cases hopens : c.opens with
    | false => simpa [nowNs, phcNowNs, nowClock, hopens] using hfallback
    | true => cases hphc : c.gettime .phc <;> simp [nowNs, phcNowNs, nowClock, hopens, hphc]

/-- The hardware clock is open and answers. -/
def Clocks.phcAnswers (device : Option String) (c : Clocks) : Bool :=
  device.isSome && c.opens && (c.gettime .phc).isSome

/-- There is no open hardware clock, and TAI answers. -/
def Clocks.taiAnswers (device : Option String) (c : Clocks) : Bool :=
  !(device.isSome && c.opens) && (c.gettime fallbackClockId).isSome

/-- The clock of a stamp whose reader takes CLOCK_REALTIME where `now_ns` fails. -/
def stampClock (device : Option String) (c : Clocks) : ClockId :=
  (nowClock device c).getD .realtime

private theorem stampClock_eq (device : Option String) (c : Clocks) :
    stampClock device c =
      if c.phcAnswers device then .phc else if c.taiAnswers device then .tai else .realtime := by
  rw [stampClock, nowClock, Clocks.phcAnswers, Clocks.taiAnswers]
  by_cases hopen : (device.isSome && c.opens) = true
  · simp only [hopen, if_true, Bool.true_and]
    cases c.gettime .phc <;> simp
  · simp only [hopen, Bool.false_and, Bool.not_false, Bool.true_and]
    cases c.gettime fallbackClockId with
    | none => cases c.gettime .realtime <;> simp
    | some ns => simp [fallbackClockId]

/-- Two stamps are from one clock exactly if the same of the two preferred clocks answered. -/
theorem stampClock_eq_iff {device : Option String} {c c' : Clocks} :
    stampClock device c = stampClock device c' ↔
      c.phcAnswers device = c'.phcAnswers device ∧ c.taiAnswers device = c'.taiAnswers device := by
  have hexclusive : ∀ c : Clocks, c.phcAnswers device = true → c.taiAnswers device = false := by
    intro c hphc
    simp only [Clocks.phcAnswers, Bool.and_eq_true] at hphc
    simp [Clocks.taiAnswers, hphc.1.1, hphc.1.2]
  have hleft := hexclusive c
  have hright := hexclusive c'
  rw [stampClock_eq, stampClock_eq]
  revert hleft hright
  cases c.phcAnswers device <;> cases c'.phcAnswers device <;> cases c.taiAnswers device <;>
    cases c'.taiAnswers device <;> simp

end Zeitpeer
