import Zeitpeer.Config
import Zeitpeer.Framework.Robust
import Mathlib.Data.Rat.Floor
import Mathlib.Tactic.NormNum

/-!
# Drift estimate and clock command

The drift is the least-squares slope over the ring of fused offsets. `apply` turns an offset
and a drift into the fields of one `adjtimex` call, each inside the range the kernel accepts.
-/

namespace Zeitpeer

open Framework

/-- A cast from `f64` to a signed 64-bit integer: toward zero, saturating. -/
def F64.toI64 (x : F64) : Int :=
  clamp (-2 ^ 63) (2 ^ 63 - 1) (if 0 ≤ x then ⌊x⌋ else ⌈x⌉)

/-- `linreg_slope_ppm` over exact rationals: stamps and offsets are not rounded to `f64`. -/
def linregSlopePpm (samples : List (UInt64 × Int)) : F64 :=
  if samples.length < 3 then 0
  else
    let n : F64 := samples.length
    let mt := (samples.map fun s => (s.1.toNat : F64)).sum / n
    let mo := (samples.map fun s => (s.2 : F64)).sum / n
    let num := (samples.map fun s => ((s.1.toNat : F64) - mt) * ((s.2 : F64) - mo)).sum
    let den := (samples.map fun s => ((s.1.toNat : F64) - mt) * ((s.1.toNat : F64) - mt)).sum
    let slope := if 0 < den then num / den else 0
    slope * 1000

/-- The fields of `struct timex` that `apply` fills in. -/
structure Timex where
  offset : Int
  freq : Int
  deriving DecidableEq, Repr

def slewApply (offsetNs driftPpm : F64) : Timex :=
  { offset := F64.toI64 (clamp (-500000) 500000 (offsetNs / 1000))
    freq := F64.toI64 (clamp (-512000) 512000 (driftPpm * 2 ^ 16)) }

private theorem F64.toI64_between {x : F64} {bound : Int} (hbound : 0 ≤ bound)
    (hlow : -(bound : F64) ≤ x) (hhigh : x ≤ bound) :
    -bound ≤ F64.toI64 x ∧ F64.toI64 x ≤ bound := by
  have htrunc : -bound ≤ (if 0 ≤ x then ⌊x⌋ else ⌈x⌉) ∧ (if 0 ≤ x then ⌊x⌋ else ⌈x⌉) ≤ bound := by
    by_cases hx : 0 ≤ x
    · rw [if_pos hx]
      have hfloor : ⌊x⌋ ≤ bound := Int.floor_le_iff.mpr (by linarith)
      have hpos : 0 ≤ ⌊x⌋ := Int.floor_nonneg.mpr hx
      exact ⟨by omega, hfloor⟩
    · rw [if_neg hx]
      have hceil : -bound ≤ ⌈x⌉ := Int.le_ceil_iff.mpr (by push_cast; linarith)
      have hneg : ⌈x⌉ ≤ 0 := Int.ceil_le.mpr (by push_cast; linarith)
      exact ⟨hceil, by omega⟩
  simp only [F64.toI64, clamp]
  omega

private theorem slewApply_between (offsetNs driftPpm : F64) :
    (-500000 ≤ (slewApply offsetNs driftPpm).offset ∧
      (slewApply offsetNs driftPpm).offset ≤ 500000) ∧
      (-512000 ≤ (slewApply offsetNs driftPpm).freq ∧
        (slewApply offsetNs driftPpm).freq ≤ 512000) := by
  have hoffset := clamp_between (show (-500000 : F64) ≤ 500000 by norm_num) (offsetNs / 1000)
  have hfreq := clamp_between (show (-512000 : F64) ≤ 512000 by norm_num) (driftPpm * 2 ^ 16)
  constructor
  · exact F64.toI64_between (by norm_num) (by exact_mod_cast hoffset.1)
      (by exact_mod_cast hoffset.2)
  · exact F64.toI64_between (by norm_num) (by exact_mod_cast hfreq.1) (by exact_mod_cast hfreq.2)

theorem F64.toI64_mono {x y : F64} (h : x ≤ y) : F64.toI64 x ≤ F64.toI64 y := by
  apply clamp_mono
  by_cases hx : 0 ≤ x
  · rw [if_pos hx, if_pos (hx.trans h)]
    exact Int.floor_le_floor h
  · rw [if_neg hx]
    by_cases hy : 0 ≤ y
    · rw [if_pos hy]
      have hceil : ⌈x⌉ ≤ 0 := Int.ceil_le.mpr (by push_cast; linarith)
      exact hceil.trans (Int.floor_nonneg.mpr hy)
    · rw [if_neg hy]
      exact Int.ceil_le_ceil h

private theorem F64.toI64_near {x : F64} (hlow : -2 ^ 63 ≤ x) (hhigh : x ≤ 2 ^ 63 - 1) :
    |(F64.toI64 x : F64) - x| < 1 := by
  by_cases hx : 0 ≤ x
  · have hfits : ⌊x⌋ ≤ 2 ^ 63 - 1 := Int.floor_le_iff.mpr (by push_cast; linarith)
    have hpos : 0 ≤ ⌊x⌋ := Int.floor_nonneg.mpr hx
    have hcast : F64.toI64 x = ⌊x⌋ := by
      rw [F64.toI64, if_pos hx]
      exact clamp_of_between (by omega) hfits
    have hbelow := Int.floor_le x
    have habove := Int.lt_floor_add_one x
    rw [hcast, abs_lt]
    constructor <;> linarith
  · have hfits : -2 ^ 63 ≤ ⌈x⌉ := Int.le_ceil_iff.mpr (by push_cast; linarith)
    have hneg : ⌈x⌉ ≤ 0 := Int.ceil_le.mpr (by push_cast; linarith)
    have hcast : F64.toI64 x = ⌈x⌉ := by
      rw [F64.toI64, if_neg hx]
      exact clamp_of_between hfits (by omega)
    have habove := Int.le_ceil x
    have hbelow := Int.ceil_lt_add_one x
    rw [hcast, abs_lt]
    constructor <;> linarith

private theorem F64.toI64_intCast {n : Int} (hlow : -2 ^ 63 ≤ n) (hhigh : n ≤ 2 ^ 63 - 1) :
    F64.toI64 n = n := by
  have hcast : (if (0 : F64) ≤ n then ⌊(n : F64)⌋ else ⌈(n : F64)⌉) = n := by
    split <;> simp
  rw [F64.toI64, hcast]
  exact clamp_of_between hlow hhigh

/-- The command for a request is in the kernel's range (500 ms in microseconds, 500 ppm in
units of 2^-16), keeps the order of the requests, and is within one unit of a request that is
itself in that range. -/
structure Represents (offsetNs driftPpm : F64) : Prop where
  offset_range : |(slewApply offsetNs driftPpm).offset| ≤ 500000
  freq_range : |(slewApply offsetNs driftPpm).freq| ≤ 500 * 2 ^ 16
  offset_mono : ∀ offsetNs' driftPpm', offsetNs ≤ offsetNs' →
    (slewApply offsetNs driftPpm).offset ≤ (slewApply offsetNs' driftPpm').offset
  freq_mono : ∀ offsetNs' driftPpm', driftPpm ≤ driftPpm' →
    (slewApply offsetNs driftPpm).freq ≤ (slewApply offsetNs' driftPpm').freq
  offset_close : |offsetNs| ≤ 500000 * 1000 →
    |((slewApply offsetNs driftPpm).offset : F64) * 1000 - offsetNs| < 1000
  freq_close : |driftPpm| ≤ 500 →
    |((slewApply offsetNs driftPpm).freq : F64) - driftPpm * 2 ^ 16| < 1

private theorem slewApply_offset_close {offsetNs driftPpm : F64} (h : |offsetNs| ≤ 500000 * 1000) :
    |((slewApply offsetNs driftPpm).offset : F64) * 1000 - offsetNs| < 1000 := by
  obtain ⟨hlow, hhigh⟩ := abs_le.mp h
  have hclamp : clamp (-500000) 500000 (offsetNs / 1000) = offsetNs / 1000 :=
    clamp_of_between (by linarith) (by linarith)
  have hnear : |(F64.toI64 (offsetNs / 1000) : F64) - offsetNs / 1000| < 1 :=
    F64.toI64_near (by linarith) (by linarith)
  obtain ⟨hbelow, habove⟩ := abs_lt.mp hnear
  rw [slewApply, hclamp, abs_lt]
  constructor <;> linarith

private theorem slewApply_freq_close_iff {offsetNs driftPpm : F64} :
    |((slewApply offsetNs driftPpm).freq : F64) - driftPpm * 2 ^ 16| < 1 ↔
      |driftPpm * 2 ^ 16| < 512001 := by
  change |(F64.toI64 (clamp (-512000) 512000 (driftPpm * 2 ^ 16)) : F64) -
    driftPpm * 2 ^ 16| < 1 ↔ _
  generalize driftPpm * 2 ^ 16 = x
  rcases le_total x (-512000) with hlow | hlow
  · have hcast : F64.toI64 (-512000) = -512000 := by
      exact_mod_cast F64.toI64_intCast (n := -512000) (by norm_num) (by norm_num)
    rw [clamp_of_ge hlow, hcast, abs_of_nonneg (by push_cast; linarith),
      abs_of_nonpos (by linarith)]
    push_cast
    constructor <;> intro h <;> linarith
  · rcases le_total x 512000 with hhigh | hhigh
    · have hnear := F64.toI64_near (x := x) (by linarith) (by linarith)
      have hsmall : |x| < 512001 := abs_lt.mpr ⟨by linarith, by linarith⟩
      rw [clamp_of_between hlow hhigh]
      exact iff_of_true hnear hsmall
    · have hcast : F64.toI64 512000 = 512000 := by
        exact_mod_cast F64.toI64_intCast (n := 512000) (by norm_num) (by norm_num)
      rw [clamp_of_le (by norm_num) hhigh, hcast, abs_of_nonpos (by push_cast; linarith),
        abs_of_nonneg (by linarith)]
      push_cast
      constructor <;> intro h <;> linarith

/-- A command stands for its request exactly if the drift does not reach the cut or is out of the
kernel's own range. -/
theorem represents_iff (offsetNs driftPpm : F64) :
    Represents offsetNs driftPpm ↔ |driftPpm * 2 ^ 16| < 512001 ∨ 500 < |driftPpm| := by
  constructor
  · intro h
    by_cases hrange : |driftPpm| ≤ 500
    · exact .inl (slewApply_freq_close_iff.mp (h.freq_close hrange))
    · exact .inr (lt_of_not_ge hrange)
  · intro h
    obtain ⟨hoffset, hfreq⟩ := slewApply_between offsetNs driftPpm
    constructor
    · exact abs_le.mpr hoffset
    · exact abs_le.mpr ⟨by omega, by omega⟩
    · intro offsetNs' driftPpm' hle
      exact F64.toI64_mono (clamp_mono (by linarith))
    · intro offsetNs' driftPpm' hle
      exact F64.toI64_mono (clamp_mono (by linarith))
    · exact slewApply_offset_close
    · intro hrange
      rcases h with hcut | hout
      · exact slewApply_freq_close_iff.mpr hcut
      · exact absurd hrange (not_le.mpr hout)

/-- A drift of 100 ppm is answered by less than eight. -/
theorem not_represents_drift : ¬ Represents 0 100 := by
  intro h
  have hclose := slewApply_freq_close_iff.mp (h.freq_close (by norm_num [abs_of_pos]))
  norm_num [abs_of_pos] at hclose

end Zeitpeer
