import Accelerators.Rational.Canonical

open truncated_euclid

namespace accelerators.rational

/-- The integers that an `Int` can hold. -/
def InRange (n : Int) : Prop := -2 ^ 31 ≤ n ∧ n < 2 ^ 31

/-- What is left of an integer in an `Int`. -/
def wrap (n : Int) : Int := n.bmod (2 ^ 32)

theorem inRange_toInt (a : Int32) : InRange a.toInt := ⟨a.le_toInt, a.toInt_lt⟩

theorem wrap_of_inRange {n : Int} (h : InRange n) : wrap n = n := by
  obtain ⟨hlow, hhigh⟩ := h
  exact Int.bmod_eq_of_le (by omega) (by omega)

theorem wrap_eq_wrap_iff {a b : Int} : wrap a = wrap b ↔ (2 : Int) ^ 32 ∣ a - b := by
  rw [wrap, wrap, Int.bmod_eq_bmod_iff_bmod_sub_eq_zero]
  exact Int.dvd_iff_bmod_eq_zero.symm

theorem wrap_mul_wrap (a b : Int) : wrap (a * wrap b) = wrap (a * b) := Int.mul_bmod_bmod

theorem toInt_gcd (a b : Int32) : (gcd a b).toInt = gcd a.toInt b.toInt := by
  fun_induction gcd a b with
  | case1 a =>
    exact ((gcd_eq a.toInt (Int32.toInt 0)).trans (if_pos rfl)).symm
  | case2 a b hb ih =>
    have hb' : b.toInt ≠ 0 := fun hzero => hb (Int32.toInt_inj.mp hzero)
    rw [ih, gcd_eq a.toInt, if_neg hb']
    exact congrArg (gcd b.toInt) (Int32.toInt_mod a b)

theorem bounds_of_mul {g n : Int} (hg : g ≠ 0) (h : InRange (g * n)) : -2 ^ 31 ≤ n ∧ n ≤ 2 ^ 31 := by
  obtain ⟨hlow, hhigh⟩ := h
  have habs : n.natAbs ≤ (g * n).natAbs := by
    rw [Int.natAbs_mul]
    exact Nat.le_mul_of_pos_left _ (Int.natAbs_pos.mpr hg)
  omega

/-- A quotient by a divisor leaves the range in one case only. -/
theorem wrap_tdiv {a g : Int} (ha : InRange a) (hg : g ≠ 0) (hdvd : g ∣ a) :
    wrap (a.tdiv g) = a.tdiv g ∨ a = -2 ^ 31 ∧ g = -1 ∧ wrap (a.tdiv g) = -2 ^ 31 := by
  obtain ⟨n, rfl⟩ := hdvd
  rw [Int.mul_tdiv_cancel_left n hg]
  obtain ⟨hlower, hupper⟩ := bounds_of_mul hg ha
  obtain rfl | hlt := eq_or_lt_of_le hupper
  · obtain ⟨hlow, hhigh⟩ := ha
    obtain rfl : g = -1 := by omega
    exact .inr ⟨by norm_num, rfl, by decide⟩
  · exact .inl (wrap_of_inRange ⟨hlower, hlt⟩)

theorem not_both_min {a b : Int} (hg : gcd a b = -1) : ¬ (a = -2 ^ 31 ∧ b = -2 ^ 31) := by
  rintro ⟨rfl, rfl⟩
  have habs := isEuclid_gcd.natAbs_eq (-2 ^ 31) (-2 ^ 31)
  rw [hg] at habs
  exact absurd habs (by decide)

namespace Rational

variable (r s : Rational Int32)

theorem toInt_numer : r.numer.toInt = wrap (r.x.toInt.tdiv (gcd r.x.toInt r.y.toInt)) := by
  rw [← toInt_gcd]
  exact Int32.toInt_div _ _

theorem toInt_denom : r.denom.toInt = wrap (r.y.toInt.tdiv (gcd r.x.toInt r.y.toInt)) := by
  rw [← toInt_gcd]
  exact Int32.toInt_div _ _

/-- The number that is represented by the stored numerator and denominator. -/
def machineValue : ℚ := r.numer.toInt / r.denom.toInt

theorem gcd_toInt_ne_zero : gcd r.x.toInt r.y.toInt ≠ 0 :=
  isEuclid_gcd.ne_zero _ fun hzero => r.denom_ne_zero (Int32.toInt_inj.mp hzero)

/-- One of the two divisions by the `gcd` leaves the range. -/
def DivisionWraps : Prop := gcd r.x.toInt r.y.toInt = -1 ∧ (r.x.toInt = -2 ^ 31 ∨ r.y.toInt = -2 ^ 31)

/-- The stored fraction is that of the arguments, unless a division wraps. -/
theorem machineValue_eq_div (h : ¬ r.DivisionWraps) : r.machineValue = r.x.toInt / r.y.toInt := by
  have hg := r.gcd_toInt_ne_zero
  have hleft := isEuclid_gcd.dvd_left r.x.toInt r.y.toInt
  have hright := isEuclid_gcd.dvd_right r.x.toInt r.y.toInt
  rw [machineValue, toInt_numer, toInt_denom]
  obtain hx | ⟨hx, hg', -⟩ := wrap_tdiv (inRange_toInt r.x) hg hleft
  · obtain hy | ⟨hy, hg', -⟩ := wrap_tdiv (inRange_toInt r.y) hg hright
    · have hx' := Int.mul_tdiv_cancel' hleft
      have hy' := Int.mul_tdiv_cancel' hright
      have hgcast : ((gcd r.x.toInt r.y.toInt : Int) : ℚ) ≠ 0 := Int.cast_ne_zero.mpr hg
      rw [hx, hy, ← mul_div_mul_left _ _ hgcast, ← Int.cast_mul, ← Int.cast_mul, hx', hy']
    · exact absurd ⟨hg', .inr hy⟩ h
  · exact absurd ⟨hg', .inl hx⟩ h

/-- Where the division of the numerator wraps, the sign of the value is lost. -/
theorem machineValue_of_numer_wraps (hg : gcd r.x.toInt r.y.toInt = -1) (hx : r.x.toInt = -2 ^ 31) :
    r.machineValue = (-2 ^ 31 : Int) / (-r.y.toInt : Int) := by
  have hy : r.y.toInt ≠ -2 ^ 31 := fun hy => not_both_min hg ⟨hx, hy⟩
  obtain hy' | ⟨hy', -⟩ := wrap_tdiv (inRange_toInt r.y) r.gcd_toInt_ne_zero
    (isEuclid_gcd.dvd_right r.x.toInt r.y.toInt)
  · rw [machineValue, toInt_numer, toInt_denom, hy', hg, hx]
    simp only [Int.tdiv_neg, Int.tdiv_one, show wrap (- -2 ^ 31) = -2 ^ 31 by decide]
  · exact absurd hy' hy

theorem machineValue_of_denom_wraps (hg : gcd r.x.toInt r.y.toInt = -1) (hy : r.y.toInt = -2 ^ 31) :
    r.machineValue = (-r.x.toInt : Int) / (-2 ^ 31 : Int) := by
  have hx : r.x.toInt ≠ -2 ^ 31 := fun hx => not_both_min hg ⟨hx, hy⟩
  obtain hx' | ⟨hx', -⟩ := wrap_tdiv (inRange_toInt r.x) r.gcd_toInt_ne_zero
    (isEuclid_gcd.dvd_left r.x.toInt r.y.toInt)
  · rw [machineValue, toInt_numer, toInt_denom, hx', hg, hy]
    simp only [Int.tdiv_neg, Int.tdiv_one, show wrap (- -2 ^ 31) = -2 ^ 31 by decide]
  · exact absurd hx' hx

end Rational

end accelerators.rational
