import Mathlib.Algebra.Order.Floor.Ring
import Mathlib.Data.Int.Log
import Mathlib.Tactic.Linarith
import Mathlib.Tactic.Ring

namespace rounding

variable {R : Type} [Field R] [LinearOrder R] [IsStrictOrderedRing R] [FloorRing R]

/-- The nearest integer, the even one of two. -/
def roundEven (x : R) : Int :=
  if x - ⌊x⌋ < 1 / 2 then ⌊x⌋
  else if 1 / 2 < x - ⌊x⌋ then ⌊x⌋ + 1
  else if ⌊x⌋ % 2 = 0 then ⌊x⌋
  else ⌊x⌋ + 1

/-- The distance of neighbouring numbers of `p` significant bits, next to `x`. -/
def quantum (p : Nat) (x : R) : R := 2 ^ (Int.log 2 |x| + 1 - p)

/-- The nearest number of `p` significant bits. The exponent is not bounded, so
    nothing is too large or too small. -/
def roundTo (p : Nat) (x : R) : R := roundEven (x / quantum p x) * quantum p x

/-- The integer part, towards zero. -/
def truncate (x : R) : Int := if 0 ≤ x then ⌊x⌋ else ⌈x⌉

theorem abs_roundEven_sub_le (x : R) : |(roundEven x : R) - x| ≤ 1 / 2 := by
  have hfloor := Int.floor_le x
  have hlt := Int.lt_floor_add_one x
  rw [roundEven, abs_le]
  split_ifs <;> push_cast <;> constructor <;> linarith

theorem quantum_pos (p : Nat) (x : R) : 0 < quantum p x := by
  exact zpow_pos two_pos _

theorem quantum_le {x : R} (p : Nat) (hx : x ≠ 0) : quantum p x ≤ 2 * |x| / 2 ^ p := by
  have hlog : (2 : R) ^ Int.log 2 |x| ≤ |x| := by
    exact_mod_cast Int.zpow_log_le_self (R := R) (by decide : 1 < 2) (abs_pos.mpr hx)
  rw [quantum, zpow_sub₀ two_ne_zero, zpow_add_one₀ two_ne_zero, zpow_natCast, mul_comm (2 ^ _) (2 : R)]
  gcongr

/-- Rounding changes a number by at most half a unit in the last place. -/
theorem abs_roundTo_sub_le (p : Nat) (x : R) : |roundTo p x - x| ≤ |x| / 2 ^ p := by
  obtain rfl | hx := eq_or_ne x 0
  · have hzero : roundEven (0 : R) = 0 := by simp [roundEven]
    simp [roundTo, hzero]
  have hquantum := quantum_pos p x
  have herror := abs_roundEven_sub_le (x / quantum p x)
  calc |roundTo p x - x|
      = |(roundEven (x / quantum p x) : R) - x / quantum p x| * quantum p x := by
        rw [← abs_of_pos hquantum, ← abs_mul, sub_mul, abs_of_pos hquantum,
          div_mul_cancel₀ x hquantum.ne', roundTo]
    _ ≤ 1 / 2 * quantum p x := by gcongr
    _ ≤ 1 / 2 * (2 * |x| / 2 ^ p) := by
        have hle := quantum_le p hx
        gcongr
    _ = |x| / 2 ^ p := by ring

/-- With one bit at least, the order of magnitude is kept. -/
theorem roundTo_bounds {p : Nat} {x : R} (hp : p ≠ 0) (hx : 0 ≤ x) :
    x / 2 ≤ roundTo p x ∧ roundTo p x ≤ 2 * x := by
  have hpow : (2 : R) ≤ 2 ^ p := by
    calc (2 : R) = 2 ^ 1 := (pow_one 2).symm
      _ ≤ 2 ^ p := pow_le_pow_right₀ one_le_two (Nat.one_le_iff_ne_zero.mpr hp)
  have herror : |roundTo p x - x| ≤ x / 2 := by
    calc |roundTo p x - x| ≤ |x| / 2 ^ p := abs_roundTo_sub_le p x
      _ = x / 2 ^ p := by rw [abs_of_nonneg hx]
      _ ≤ x / 2 := by gcongr
  rw [abs_le] at herror
  constructor <;> linarith

theorem truncate_bounds {x : R} {n : Int} (hx : 0 ≤ x) (hle : x ≤ n) : 0 ≤ truncate x ∧ truncate x ≤ n := by
  rw [truncate, if_pos hx]
  exact ⟨Int.floor_nonneg.mpr hx, Int.floor_le_iff.mpr (hle.trans_lt (lt_add_one _))⟩

end rounding
