import Mathlib.Data.Int.Basic
import Mathlib.Tactic.Linarith

/-!
# Offset and delay of one exchange

The four-timestamp equations over `i128` values. Every timestamp comes from a `u64`, so no
intermediate sum leaves the `i128` range and the values are plain integers.
-/

namespace Zeitpeer

structure PairCalc where
  delayNs : Int
  offsetNs : Int
  deriving DecidableEq, Repr

/-- `compute_offset_delay`: the halving truncates toward zero. -/
def computeOffsetDelay (t1 t2 t3 t4 : Int) : PairCalc :=
  { delayNs := (t4 - t1) - (t3 - t2)
    offsetNs := ((t2 - t1) + (t3 - t4)).tdiv 2 }

/-- Truncating halving loses at most one unit of the doubled value. -/
theorem abs_two_mul_tdiv_two_sub_le (x : Int) : |2 * x.tdiv 2 - x| ≤ 1 := by
  have hdiv := Int.mul_tdiv_add_tmod x 2
  have hhigh := Int.tmod_lt_of_pos x (show (0 : Int) < 2 by decide)
  have hlow := Int.lt_tmod_of_pos x (show (0 : Int) < 2 by decide)
  rw [abs_le]
  omega

/-- When both one-way times of an exchange are non-negative, so is the delay, and the offset
misses the clock difference by at most half of it, up to the halving. -/
theorem computeOffsetDelay_exchange {t1 t2 t3 t4 theta : Int}
    (hout : t1 ≤ t2 - theta) (hback : t3 - theta ≤ t4) :
    0 ≤ (computeOffsetDelay t1 t2 t3 t4).delayNs ∧
      |2 * ((computeOffsetDelay t1 t2 t3 t4).offsetNs - theta)| ≤
        (computeOffsetDelay t1 t2 t3 t4).delayNs + 1 := by
  have htrunc := abs_le.mp (abs_two_mul_tdiv_two_sub_le ((t2 - t1) + (t3 - t4)))
  simp only [computeOffsetDelay]
  refine ⟨by omega, ?_⟩
  rw [abs_le]
  omega

/-- All four values from `u64` clocks keep both results far inside `i128`. -/
theorem computeOffsetDelay_range {t1 t2 t3 t4 : UInt64} :
    |(computeOffsetDelay t1.toNat t2.toNat t3.toNat t4.toNat).delayNs| < 2 ^ 65 ∧
      |(computeOffsetDelay t1.toNat t2.toNat t3.toNat t4.toNat).offsetNs| < 2 ^ 65 := by
  have h1 := t1.toNat_lt
  have h2 := t2.toNat_lt
  have h3 := t3.toNat_lt
  have h4 := t4.toNat_lt
  have htrunc := abs_le.mp
    (abs_two_mul_tdiv_two_sub_le (((t2.toNat : Int) - t1.toNat) + (t3.toNat - t4.toNat)))
  simp only [computeOffsetDelay]
  constructor <;> rw [abs_lt] <;> omega

end Zeitpeer
