import Mathlib.Algebra.Group.Int.Units
import Mathlib.Data.Rat.Defs
import Mathlib.Tactic.FieldSimp
import Mathlib.Tactic.LinearCombination
import Accelerators.Rational

open truncated_euclid

namespace accelerators.rational

theorem gcd_eq {α : Type} [Zero α] [DecidableEq α] [TruncatedDivision α] (a b : α) :
    gcd a b = if b = 0 then a else gcd b (TruncatedDivision.rem a b) := by
  rw [gcd]

/-- On unbounded integers `gcd` is Euclid's algorithm. -/
theorem isEuclid_gcd : IsEuclid (gcd : Int → Int → Int) := fun a b => gcd_eq a b

namespace Rational

variable (r s : Rational Int)

theorem g_ne_zero : r.g ≠ 0 := isEuclid_gcd.ne_zero r.x r.denom_ne_zero

theorem g_mul_numer : r.g * r.numer = r.x := Int.mul_tdiv_cancel' (isEuclid_gcd.dvd_left r.x r.y)

theorem g_mul_denom : r.g * r.denom = r.y := Int.mul_tdiv_cancel' (isEuclid_gcd.dvd_right r.x r.y)

theorem denom_ne : r.denom ≠ 0 := by
  intro hzero
  apply r.denom_ne_zero
  rw [← r.g_mul_denom, hzero, mul_zero]

theorem gcd_numer_denom : gcd r.numer r.denom = 1 := isEuclid_gcd.quotients r.x r.denom_ne_zero

theorem numer_mul_y : r.numer * r.y = r.x * r.denom := by
  calc r.numer * r.y = r.numer * (r.g * r.denom) := by rw [r.g_mul_denom]
    _ = r.g * r.numer * r.denom := by ring
    _ = r.x * r.denom := by rw [r.g_mul_numer]

theorem common_factor {k : Int} (hn : k ∣ r.numer) (hd : k ∣ r.denom) : k = 1 ∨ k = -1 := by
  have hgcd : Int.gcd r.numer r.denom = 1 := by
    rw [← isEuclid_gcd.natAbs_eq, r.gcd_numer_denom]
    rfl
  have hk : k ∣ 1 := by
    have hdvd := Int.dvd_coe_gcd hn hd
    rwa [hgcd] at hdvd
  exact Int.isUnit_iff.mp (isUnit_of_dvd_one hk)

/-- Numerator and denominator are a canonical form of the ratio. -/
theorem numer_denom_eq_iff : r.numer = s.numer ∧ r.denom = s.denom ↔ r.x * s.y = s.x * r.y := by
  constructor
  · rintro ⟨hn, hd⟩
    rw [← r.g_mul_numer, ← s.g_mul_numer, ← r.g_mul_denom, ← s.g_mul_denom, hn, hd]
    ring
  · intro hratio
    apply isEuclid_gcd.eq_of_proportional r.gcd_numer_denom s.gcd_numer_denom r.denom_ne
    apply mul_left_cancel₀ (mul_ne_zero r.g_ne_zero s.g_ne_zero)
    rw [← r.g_mul_numer, ← s.g_mul_numer, ← r.g_mul_denom, ← s.g_mul_denom] at hratio
    linear_combination hratio

/-- The number that a rational represents. -/
def value : ℚ := r.numer / r.denom

theorem denom_cast_ne : (r.denom : ℚ) ≠ 0 := Int.cast_ne_zero.mpr r.denom_ne

theorem value_eq_div : r.value = r.x / r.y := by
  have hy : (r.y : ℚ) ≠ 0 := Int.cast_ne_zero.mpr r.denom_ne_zero
  rw [value, div_eq_div_iff r.denom_cast_ne hy]
  exact_mod_cast r.numer_mul_y

theorem value_eq_iff : r.value = s.value ↔ r.x * s.y = s.x * r.y := by
  have hr : (r.y : ℚ) ≠ 0 := Int.cast_ne_zero.mpr r.denom_ne_zero
  have hs : (s.y : ℚ) ≠ 0 := Int.cast_ne_zero.mpr s.denom_ne_zero
  rw [value_eq_div, value_eq_div, div_eq_div_iff hr hs]
  exact_mod_cast Iff.rfl

/-- A constructor call with a denominator other than zero succeeds. -/
theorem new_eq {x y : Int} (hy : y ≠ 0) : new x y = .ok ⟨x, y, hy⟩ := dif_pos hy

theorem whole_value (x : Int) : ∃ t, whole x = .ok t ∧ t.value = x := by
  refine ⟨_, new_eq one_ne_zero, ?_⟩
  rw [value_eq_div, Int.cast_one, div_one]

/-- The sum is exact, and its `require` is met. -/
theorem add_value : ∃ t, r.add s = .ok t ∧ t.value = r.value + s.value := by
  have hdenom := mul_ne_zero r.denom_ne s.denom_ne
  refine ⟨_, new_eq hdenom, ?_⟩
  rw [value_eq_div, value, value, div_add_div _ _ r.denom_cast_ne s.denom_cast_ne]
  push_cast
  ring_nf

theorem neg_value : ∃ t, r.neg = .ok t ∧ t.value = -r.value := by
  refine ⟨_, new_eq r.denom_ne, ?_⟩
  rw [value_eq_div, value, ← neg_div]
  push_cast
  rfl

theorem sub_value : ∃ t, r.sub s = .ok t ∧ t.value = r.value - s.value := by
  obtain ⟨n, hn, hvalue⟩ := s.neg_value
  obtain ⟨t, ht, hsum⟩ := r.add_value n
  refine ⟨t, ?_, by rw [hsum, hvalue, sub_eq_add_neg]⟩
  rw [sub, hn]
  exact ht

end Rational

end accelerators.rational
