import Mathlib.Algebra.Order.Group.Nat
import Mathlib.Data.Int.Log
import Mathlib.Data.Nat.Log
import Mathlib.Data.Rat.Floor
import Mathlib.Tactic.FieldSimp
import Mathlib.Tactic.Linarith

/-!
# Rounding to a number of bits

A natural number is rounded to the nearest multiple of a place, halves to the even multiple. In
a binary format with some number of significant bits the place grows with the number, and
rounding still keeps the order: a power of two is a multiple of its own place, so no number is
rounded across one. A rational number is rounded in the same way, to places below one as well,
and on the natural numbers the two agree.
-/

namespace Framework

/-- The nearest multiple of the place, halves to the even one. -/
def nearest (place n : Nat) : Nat :=
  (if place < 2 * (n % place) ∨ place = 2 * (n % place) ∧ n / place % 2 = 1 then n / place + 1
    else n / place) * place

/-- The nearest number with so many significant bits. -/
def toBits (bits n : Nat) : Nat := nearest (2 ^ (n.log2 + 1 - bits)) n

section Nearest

variable {place n m : Nat}

theorem nearest_of_dvd (h : place ∣ n) : nearest place n = n := by
  have hrest : n % place = 0 := Nat.mod_eq_zero_of_dvd h
  have hplace : ¬ (place < 0 ∨ place = 0 ∧ n / place % 2 = 1) := by
    rintro (hneg | ⟨rfl, hodd⟩)
    · omega
    · simp at hodd
  rw [nearest, hrest, Nat.mul_zero, if_neg hplace, Nat.div_mul_cancel h]

theorem nearest_mono (place : Nat) (h : n ≤ m) : nearest place n ≤ nearest place m := by
  have hquot : n / place ≤ m / place := Nat.div_le_div_right h
  have hsplit : n / place * place + n % place = n := Nat.div_add_mod' n place
  have hsplit' : m / place * place + m % place = m := Nat.div_add_mod' m place
  rw [nearest, nearest]
  apply Nat.mul_le_mul_right
  rcases Nat.eq_or_lt_of_le hquot with hsame | hmore
  · -- under one quotient the larger remainder is rounded up whenever the smaller one is
    rw [hsame] at hsplit ⊢
    have hrest : n % place ≤ m % place := by omega
    split
    · split
      · exact le_rfl
      · omega
    · split <;> omega
  · split <;> split <;> omega

end Nearest

variable {bits n m : Nat}

private theorem place_dvd_pow (hbits : 0 < bits) {k : Nat} (h : n.log2 ≤ k) :
    2 ^ (n.log2 + 1 - bits) ∣ 2 ^ k := Nat.pow_dvd_pow 2 (by omega)

private theorem pow_le_toBits (hbits : 0 < bits) {k : Nat} (h : 2 ^ k ≤ n) :
    2 ^ k ≤ toBits bits n := by
  have hne : n ≠ 0 := (lt_of_lt_of_le (Nat.two_pow_pos k) h).ne'
  calc 2 ^ k ≤ 2 ^ n.log2 := Nat.pow_le_pow_right (by decide) ((Nat.le_log2 hne).mpr h)
    _ = nearest (2 ^ (n.log2 + 1 - bits)) (2 ^ n.log2) :=
        (nearest_of_dvd (place_dvd_pow hbits le_rfl)).symm
    _ ≤ toBits bits n := nearest_mono _ (Nat.log2_self_le hne)

private theorem toBits_le_pow (hbits : 0 < bits) {k : Nat} (h : n < 2 ^ k) :
    toBits bits n ≤ 2 ^ k := by
  by_cases hne : n = 0
  · subst hne
    rw [toBits, nearest_of_dvd (Nat.dvd_zero _)]
    exact Nat.zero_le _
  · calc toBits bits n ≤ nearest (2 ^ (n.log2 + 1 - bits)) (2 ^ k) := nearest_mono _ h.le
      _ = 2 ^ k := nearest_of_dvd (place_dvd_pow hbits ((Nat.log2_lt hne).mpr h).le)

/-- A number that has no more bits than are kept is not rounded. -/
theorem toBits_of_lt (h : n < 2 ^ bits) : toBits bits n = n := by
  apply nearest_of_dvd
  by_cases hne : n = 0
  · rw [hne]
    exact Nat.dvd_zero _
  · have hlog := (Nat.log2_lt hne).mpr h
    have hplace : n.log2 + 1 - bits = 0 := by omega
    rw [hplace]
    exact Nat.one_dvd n

theorem toBits_mono (hbits : 0 < bits) (h : n ≤ m) : toBits bits n ≤ toBits bits m := by
  by_cases hne : n = 0
  · subst hne
    rw [toBits, nearest_of_dvd (Nat.dvd_zero _)]
    exact Nat.zero_le _
  · have hlog : n.log2 ≤ m.log2 :=
      (Nat.le_log2 (by omega)).mpr ((Nat.log2_self_le hne).trans h)
    rcases Nat.eq_or_lt_of_le hlog with hsame | hmore
    · rw [toBits, toBits, hsame]
      exact nearest_mono _ h
    · -- the power of two above the smaller number lies between them
      have habove : 2 ^ (n.log2 + 1) ≤ m := (Nat.le_log2 (by omega)).mp hmore
      exact (toBits_le_pow hbits Nat.lt_log2_self).trans (pow_le_toBits hbits habove)

/-- The nearest integer, halves to the even one. -/
def roundEven (x : Rat) : Int :=
  if x - ⌊x⌋ < 1 / 2 ∨ x - ⌊x⌋ = 1 / 2 ∧ ⌊x⌋ % 2 = 0 then ⌊x⌋ else ⌊x⌋ + 1

/-- The value of the last of so many significant bits. -/
def lastPlace (bits : Nat) (x : Rat) : Rat := 2 ^ (Int.log 2 |x| + 1 - bits)

/-- The nearest rational with so many significant bits, halves to the even one. -/
def ratToBits (bits : Nat) (x : Rat) : Rat :=
  roundEven (x / lastPlace bits x) * lastPlace bits x

section Rational

variable {x y : Rat}

theorem roundEven_intCast (n : Int) : roundEven n = n := by
  simp [roundEven]

theorem roundEven_mono (h : x ≤ y) : roundEven x ≤ roundEven y := by
  have hfloor : ⌊x⌋ ≤ ⌊y⌋ := Int.floor_le_floor h
  rcases hfloor.eq_or_lt with hsame | hmore
  · -- over one floor the larger number is rounded up whenever the smaller one is
    rw [roundEven, roundEven, hsame]
    split
    · split <;> omega
    · rename_i hup
      have hdown : ¬ (y - ⌊y⌋ < 1 / 2 ∨ y - ⌊y⌋ = 1 / 2 ∧ ⌊y⌋ % 2 = 0) := by
        rintro (hless | ⟨hhalf, heven⟩)
        · exact hup (.inl (by linarith))
        · rcases h.eq_or_lt with rfl | hlt
          · exact hup (.inr ⟨hhalf, heven⟩)
          · exact hup (.inl (by linarith))
      rw [if_neg hdown]
  · rw [roundEven, roundEven]
    split <;> split <;> omega

theorem lastPlace_pos (bits : Nat) (x : Rat) : 0 < lastPlace bits x := by
  exact zpow_pos two_pos _

private theorem ratToBits_of_multiple {m : Int} (h : x = m * lastPlace bits x) :
    ratToBits bits x = x := by
  have hquot : x / lastPlace bits x = m := (div_eq_iff (lastPlace_pos bits x).ne').mpr h
  rw [ratToBits, hquot, roundEven_intCast, ← h]

theorem ratToBits_nonneg (bits : Nat) (h : 0 ≤ x) : 0 ≤ ratToBits bits x := by
  have hplace := lastPlace_pos bits x
  have hquot : roundEven ((0 : Int) : Rat) ≤ roundEven (x / lastPlace bits x) := by
    apply roundEven_mono
    rw [Int.cast_zero]
    exact div_nonneg h hplace.le
  rw [roundEven_intCast] at hquot
  exact mul_nonneg (by exact_mod_cast hquot) hplace.le

private theorem pow_eq_multiple (hbits : 0 < bits) {k : Int} (h : Int.log 2 |x| ≤ k) :
    ∃ m : Int, (2 : Rat) ^ k = m * lastPlace bits x := by
  refine ⟨2 ^ (k - (Int.log 2 |x| + 1 - bits)).toNat, ?_⟩
  have hexp : ((k - (Int.log 2 |x| + 1 - bits)).toNat : Int) = k - (Int.log 2 |x| + 1 - bits) :=
    Int.toNat_of_nonneg (by omega)
  rw [lastPlace, Int.cast_pow, Int.cast_ofNat, ← zpow_natCast, hexp, ← zpow_add₀ two_ne_zero]
  congr 1
  omega

/-- No number is rounded across a power of two. -/
theorem abs_ratToBits_le (hbits : 0 < bits) {k : Int} (h : |x| ≤ 2 ^ k) :
    |ratToBits bits x| ≤ 2 ^ k := by
  by_cases hzero : x = 0
  · rw [hzero, ratToBits_of_multiple (m := 0) (by simp), abs_zero]
    exact (zpow_pos two_pos k).le
  have hlog : Int.log 2 |x| ≤ k := by
    have hmono := Int.log_mono_right (b := 2) (abs_pos.mpr hzero) h
    rwa [← Nat.cast_ofNat (R := Rat), Int.log_zpow one_lt_two] at hmono
  obtain ⟨m, hm⟩ := pow_eq_multiple hbits hlog
  have hplace := lastPlace_pos bits x
  obtain ⟨hlow, hhigh⟩ := abs_le.mp h
  have hlow' : -m ≤ roundEven (x / lastPlace bits x) := by
    rw [← roundEven_intCast (-m)]
    apply roundEven_mono
    rw [le_div_iff₀ hplace]
    push_cast
    linarith
  have hhigh' : roundEven (x / lastPlace bits x) ≤ m := by
    rw [← roundEven_intCast m]
    apply roundEven_mono
    rw [div_le_iff₀ hplace]
    linarith
  rw [ratToBits, abs_mul, abs_of_pos hplace, hm, ← Int.cast_abs]
  exact mul_le_mul_of_nonneg_right (by exact_mod_cast abs_le.mpr ⟨hlow', hhigh'⟩) hplace.le

/-- An integer that has no more bits than are kept is not rounded. -/
theorem ratToBits_intCast {n : Int} (h : |n| < 2 ^ bits) : ratToBits bits n = n := by
  by_cases hzero : n = 0
  · subst hzero
    exact ratToBits_of_multiple (m := 0) (by simp)
  have hpos : 0 < |(n : Rat)| := abs_pos.mpr (by exact_mod_cast hzero)
  have hlog : Int.log 2 |(n : Rat)| < bits := by
    rw [← Int.lt_zpow_iff_log_lt one_lt_two hpos]
    exact_mod_cast h
  -- the last place is one or less, so that it divides one
  obtain ⟨d, hd⟩ := Int.eq_ofNat_of_zero_le
    (by omega : 0 ≤ -(Int.log 2 |(n : Rat)| + 1 - bits))
  have hone : (2 : Rat) ^ d * lastPlace bits n = 1 := by
    rw [lastPlace, ← zpow_natCast, ← hd, ← zpow_add₀ two_ne_zero, neg_add_cancel, zpow_zero]
  apply ratToBits_of_multiple (m := n * 2 ^ d)
  push_cast
  rw [mul_assoc, hone, mul_one]

private theorem roundEven_natCast_div {place : Nat} (n : Nat) (hplace : 0 < place) :
    roundEven ((n : Rat) / place) * place = nearest place n := by
  have hfloor : ⌊(n : Rat) / place⌋ = (n / place : Nat) := by
    rw [Rat.floor_natCast_div_natCast]
    push_cast
    rfl
  have hpos : (0 : Rat) < place := by exact_mod_cast hplace
  have hsplit : (n : Rat) = place * (n / place : Nat) + (n % place : Nat) := by
    exact_mod_cast (Nat.div_add_mod n place).symm
  have hrest : (n : Rat) / place - (n / place : Nat) = (n % place : Nat) / place := by
    rw [eq_div_iff hpos.ne', sub_mul, div_mul_cancel₀ _ hpos.ne']
    linarith
  have hup : (place < 2 * (n % place) ∨ place = 2 * (n % place) ∧ n / place % 2 = 1) ↔
      ¬ ((n : Rat) / place - (n / place : Nat) < 1 / 2 ∨
        (n : Rat) / place - (n / place : Nat) = 1 / 2 ∧ ((n / place : Nat) : Int) % 2 = 0) := by
    have hless : ((n % place : Nat) : Rat) / place < 1 / 2 ↔ 2 * (n % place) < place := by
      rw [div_lt_div_iff₀ hpos two_pos, mul_comm, one_mul]
      exact_mod_cast Iff.rfl
    have hhalf : ((n % place : Nat) : Rat) / place = 1 / 2 ↔ 2 * (n % place) = place := by
      rw [div_eq_div_iff hpos.ne' two_ne_zero, mul_comm, one_mul]
      exact_mod_cast Iff.rfl
    rw [hrest, hless, hhalf]
    omega
  rw [roundEven, hfloor, nearest]
  by_cases h : place < 2 * (n % place) ∨ place = 2 * (n % place) ∧ n / place % 2 = 1
  · rw [if_pos h, Int.cast_natCast, if_neg (hup.mp h)]
    push_cast
    rfl
  · rw [if_neg h, Int.cast_natCast, if_pos (not_not.mp (mt hup.mpr h))]
    push_cast
    rfl

/-- On the natural numbers the two roundings agree. -/
theorem ratToBits_natCast (bits n : Nat) : ratToBits bits n = toBits bits n := by
  by_cases hshort : n < 2 ^ bits
  · have hexact := ratToBits_intCast (n := n) (by exact_mod_cast hshort)
    rw [toBits_of_lt hshort]
    exact_mod_cast hexact
  · have hreach : 2 ^ bits ≤ n := Nat.not_lt.mp hshort
    have hpos : 0 < n := (Nat.two_pow_pos bits).trans_le hreach
    have hlong : bits ≤ n.log2 := (Nat.le_log2 hpos.ne').mpr hreach
    have hplace : lastPlace bits n = ((2 ^ (n.log2 + 1 - bits) : Nat) : Rat) := by
      rw [lastPlace, Nat.abs_cast, Int.log_natCast, ← Nat.log2_eq_log_two]
      push_cast
      rw [← zpow_natCast]
      congr 1
      omega
    have hround := roundEven_natCast_div n (Nat.two_pow_pos (n.log2 + 1 - bits))
    rw [ratToBits, hplace, toBits]
    exact_mod_cast hround

end Rational

end Framework
