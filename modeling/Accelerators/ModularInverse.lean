import Mathlib.Data.Nat.ModEq
import Mathlib.Tactic.Ring

namespace modular_inverse

/-- Two remainders of Euclid's algorithm for a modulus `m` and a number `a`, with their
    factors: `x` is `t0` times the number, `y` is `t1` times its opposite. -/
structure Cofactors (m a x y t0 t1 : Nat) : Prop where
  total : t0 * y + t1 * x = m
  left : x ≡ t0 * a [MOD m]
  right : y + t1 * a ≡ 0 [MOD m]
  coprime : Nat.Coprime x y

namespace Cofactors

variable {m a x y t0 t1 : Nat}

theorem start (hcoprime : Nat.Coprime a m) : Cofactors m a a (m % a) 1 (m / a) where
  total := by rw [Nat.one_mul, Nat.mod_add_div']
  left := by rw [Nat.one_mul]
  right := by rw [Nat.mod_add_div']; exact Nat.modEq_zero_iff_dvd.mpr dvd_rfl
  coprime := by
    rw [Nat.Coprime, ← Nat.gcd_comm, ← Nat.gcd_rec]
    exact hcoprime

/-- A number other than one does not divide the other. -/
theorem left_ne_zero (h : Cofactors m a x y t0 t1) (hy : y ≠ 1) : x ≠ 0 := by
  rintro rfl
  exact hy ((Nat.coprime_zero_left y).mp h.coprime)

theorem right_ne_zero (h : Cofactors m a x y t0 t1) (hx : x ≠ 1) : y ≠ 0 := by
  rintro rfl
  exact hx ((Nat.coprime_zero_right x).mp h.coprime)

/-- The left number is divided by the right one. -/
theorem divide_left (h : Cofactors m a x y t0 t1) : Cofactors m a (x % y) y (t0 + x / y * t1) t1 where
  total := by
    calc (t0 + x / y * t1) * y + t1 * (x % y) = t0 * y + t1 * (x % y + y * (x / y)) := by ring
      _ = m := by rw [Nat.mod_add_div, h.total]
  left := by
    have hsum : x % y + x / y * (y + t1 * a) = x + x / y * (t1 * a) := by
      calc x % y + x / y * (y + t1 * a) = x % y + y * (x / y) + x / y * (t1 * a) := by ring
        _ = x + x / y * (t1 * a) := by rw [Nat.mod_add_div]
    have hzero : x % y + x / y * (y + t1 * a) ≡ x % y [MOD m] := by
      simpa using (h.right.mul_left (x / y)).add_left (x % y)
    rw [Nat.add_mul, Nat.mul_assoc]
    exact hzero.symm.trans (hsum ▸ h.left.add_right _)
  right := h.right
  coprime := by
    rw [Nat.Coprime, ← Nat.gcd_rec, Nat.gcd_comm]
    exact h.coprime

/-- The right number is divided by the left one. -/
theorem divide_right (h : Cofactors m a x y t0 t1) : Cofactors m a x (y % x) t0 (t1 + y / x * t0) where
  total := by
    calc t0 * (y % x) + (t1 + y / x * t0) * x = t0 * (y % x + x * (y / x)) + t1 * x := by ring
      _ = m := by rw [Nat.mod_add_div, h.total]
  left := h.left
  right := by
    have hsum : y % x + (t1 + y / x * t0) * a + y / x * x = y + t1 * a + y / x * (t0 * a) := by
      calc y % x + (t1 + y / x * t0) * a + y / x * x = y % x + x * (y / x) + t1 * a + y / x * (t0 * a) := by ring
        _ = y + t1 * a + y / x * (t0 * a) := by rw [Nat.mod_add_div]
    apply Nat.ModEq.add_right_cancel' (y / x * x)
    rw [hsum]
    exact h.right.add (h.left.symm.mul_left _)
  coprime := by
    rw [Nat.Coprime, Nat.gcd_comm, ← Nat.gcd_rec]
    exact h.coprime

theorem left_le (h : Cofactors m a x y t0 t1) (hy : 0 < y) : t0 ≤ m :=
  h.total ▸ Nat.le_add_right_of_le (Nat.le_mul_of_pos_right t0 hy)

theorem right_le (h : Cofactors m a x y t0 t1) (hx : 0 < x) : t1 ≤ m :=
  h.total ▸ Nat.le_add_left_of_le (Nat.le_mul_of_pos_right t1 hx)

/-- The factor of one is the inverse. -/
theorem inverse_left (h : Cofactors m a 1 y t0 t1) : t0 * a ≡ 1 [MOD m] := h.left.symm

theorem inverse_right (h : Cofactors m a x 1 t0 t1) (hx : 0 < x) : (m - t1) * a ≡ 1 [MOD m] := by
  have hsum : (m - t1) * a + t1 * a ≡ 1 + t1 * a [MOD m] := by
    rw [← Nat.add_mul, Nat.sub_add_cancel (h.right_le hx)]
    exact (Nat.modEq_zero_iff_dvd.mpr (Nat.dvd_mul_right m a)).trans h.right.symm
  exact Nat.ModEq.add_right_cancel' _ hsum

end Cofactors

end modular_inverse
