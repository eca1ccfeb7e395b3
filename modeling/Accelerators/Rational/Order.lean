import Mathlib.Algebra.Order.Field.Basic
import Mathlib.Data.Rat.Cast.Order
import Mathlib.Data.Set.Defs
import Accelerators.Rational.Canonical

open truncated_euclid

namespace accelerators.rational.Rational

variable {r s t : Rational Int}

theorem less_iff : r.less s = true ↔ r.numer * s.denom < s.numer * r.denom := by
  simp [less]

theorem value_sub :
    s.value - r.value = ((s.numer * r.denom - r.numer * s.denom : Int) : ℚ) / (r.denom * s.denom : Int) := by
  rw [value, value, div_sub_div _ _ s.denom_cast_ne r.denom_cast_ne]
  push_cast
  ring_nf

/-- Denominators of one sign: the products compare as the values do. -/
theorem less_iff_of_pos (hsign : 0 < r.denom * s.denom) : r.less s = true ↔ r.value < s.value := by
  have hsign' : (0 : ℚ) < (r.denom * s.denom : Int) := Int.cast_pos.mpr hsign
  rw [less_iff, ← sub_pos, ← sub_pos (a := s.value), value_sub, div_pos_iff_of_pos_right hsign', Int.cast_pos]

/-- Denominators of different signs: they compare the other way. -/
theorem less_iff_of_neg (hsign : r.denom * s.denom < 0) : r.less s = true ↔ s.value < r.value := by
  have hsign' : ((r.denom * s.denom : Int) : ℚ) < 0 := Int.cast_lt_zero.mpr hsign
  rw [less_iff, ← sub_pos, ← sub_neg (a := s.value), value_sub, div_lt_iff_of_neg hsign',
    zero_mul, Int.cast_pos]

theorem denom_mul_ne_zero : r.denom * s.denom ≠ 0 := mul_ne_zero r.denom_ne s.denom_ne

/-- Equal values have the same denominator. -/
theorem denom_mul_pos_of_value_eq (heq : r.value = s.value) : 0 < r.denom * s.denom := by
  have hdenom := ((numer_denom_eq_iff r s).mpr ((value_eq_iff r s).mp heq)).2
  rw [hdenom]
  exact mul_self_pos.mpr s.denom_ne

theorem less_correct_iff : (r.less s = true ↔ r.value < s.value) ↔ 0 < r.denom * s.denom := by
  constructor
  · intro hcorrect
    by_contra hsign
    have hneg : r.denom * s.denom < 0 := lt_of_le_of_ne (not_lt.mp hsign) denom_mul_ne_zero
    have hreverse := hcorrect.symm.trans (less_iff_of_neg hneg)
    obtain hlt | heq | hgt := lt_trichotomy r.value s.value
    · exact lt_asymm hlt (hreverse.mp hlt)
    · exact hsign (denom_mul_pos_of_value_eq heq)
    · exact lt_asymm hgt (hreverse.mpr hgt)
  · exact less_iff_of_pos

theorem max_value_of_pos (hsign : 0 < r.denom * s.denom) : (r.max s).value = Max.max r.value s.value := by
  rw [max]
  split_ifs with hless
  · exact (max_eq_right ((less_iff_of_pos hsign).mp hless).le).symm
  · exact (max_eq_left (not_lt.mp fun hlt => hless ((less_iff_of_pos hsign).mpr hlt))).symm

/-- `less` compares two rationals, and `max` takes the larger one, exactly when
    their denominators have the same sign. Among rationals of which any two are
    so, `less` is a strict total order of the values. -/
theorem less_max_correct_iff (r s : Rational Int) :
    ((r.less s = true ↔ r.value < s.value) ∧ (r.max s).value = Max.max r.value s.value ↔
      0 < r.denom * s.denom) ∧
    ∀ S : Set (Rational Int), (∀ r ∈ S, ∀ s ∈ S, 0 < r.denom * s.denom) →
      (∀ r ∈ S, r.less r = false) ∧
      (∀ r ∈ S, ∀ s ∈ S, ∀ t ∈ S, r.less s = true → s.less t = true → r.less t = true) ∧
      ∀ r ∈ S, ∀ s ∈ S, r.less s = true ∨ r.value = s.value ∨ s.less r = true := by
  refine ⟨⟨fun h => less_correct_iff.mp h.1, fun h => ⟨less_iff_of_pos h, max_value_of_pos h⟩⟩,
    fun S hS => ?_⟩
  have hless : ∀ r ∈ S, ∀ s ∈ S, (r.less s = true ↔ r.value < s.value) :=
    fun r hr s hs => less_iff_of_pos (hS r hr s hs)
  refine ⟨fun r hr => ?_, fun r hr s hs t ht hrs hst => ?_, fun r hr s hs => ?_⟩
  · rw [← Bool.not_eq_true, hless r hr r hr]
    exact lt_irrefl _
  · rw [hless r hr s hs] at hrs
    rw [hless s hs t ht] at hst
    rw [hless r hr t ht]
    exact hrs.trans hst
  · rw [hless r hr s hs, hless s hs r hr]
    exact lt_trichotomy _ _

def third : Rational Int := ⟨1, 3, by decide⟩
def minusThird : Rational Int := ⟨-1, 3, by decide⟩

theorem third_stored : third.numer = 1 ∧ third.denom = 3 := by
  have hg : third.g = 1 := by
    rw [g, third, gcd_eq, if_neg (by decide), gcd_eq, if_neg (by decide), gcd_eq, if_pos (by decide)]
    rfl
  rw [numer, denom, hg]
  decide

theorem minusThird_stored : minusThird.numer = 1 ∧ minusThird.denom = -3 := by
  have hg : minusThird.g = -1 := by
    rw [g, minusThird, gcd_eq, if_neg (by decide), gcd_eq, if_neg (by decide), gcd_eq, if_pos (by decide)]
    rfl
  rw [numer, denom, hg]
  decide

/-- The denominator of -1/3 is stored as -3. -/
theorem minusThird_not_less : minusThird.value < third.value ∧ minusThird.less third = false ∧
    (minusThird.max third).value ≠ Max.max minusThird.value third.value := by
  obtain ⟨hn, hd⟩ := third_stored
  obtain ⟨hn', hd'⟩ := minusThird_stored
  have hvalue : minusThird.value < third.value := by
    rw [value, value, hn, hd, hn', hd']
    norm_num
  have hless : minusThird.less third = false := by
    rw [less, hn, hd, hn', hd']
    decide
  refine ⟨hvalue, hless, ?_⟩
  rw [max, hless, max_eq_right hvalue.le]
  exact hvalue.ne

end accelerators.rational.Rational
