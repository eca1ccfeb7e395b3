import Mathlib.Algebra.Order.Ring.Int
import Mathlib.Data.Int.GCD
import Mathlib.Tactic.Ring

namespace truncated_euclid

/-- Division that rounds towards zero, and a measure that the remainder lowers. -/
class TruncatedDivision (α : Type) [Zero α] where
  quot : α → α → α
  rem : α → α → α
  size : α → Nat
  size_rem_lt : ∀ a b, b ≠ 0 → size (rem a b) < size b

theorem natAbs_tmod_lt (a : Int) {b : Int} (hb : b ≠ 0) : (a.tmod b).natAbs < b.natAbs := by
  rw [Int.natAbs_tmod]
  exact Nat.mod_lt _ (Int.natAbs_pos.mpr hb)

instance : TruncatedDivision Int where
  quot := Int.tdiv
  rem := Int.tmod
  size := Int.natAbs
  size_rem_lt := fun a _ hb => natAbs_tmod_lt a hb

instance : TruncatedDivision Int32 where
  quot := fun a b => a / b
  rem := fun a b => a % b
  size := fun a => a.toInt.natAbs
  size_rem_lt := by
    intro a b hb
    rw [Int32.toInt_mod]
    exact natAbs_tmod_lt _ fun hzero => hb (Int32.toInt_inj.mp hzero)

/-- Euclid's algorithm on signed integers. Its result has a sign of its own. -/
def IsEuclid (gcd : Int → Int → Int) : Prop :=
  ∀ a b, gcd a b = if b = 0 then a else gcd b (a.tmod b)

namespace IsEuclid

variable {gcd : Int → Int → Int} {a b k n d n' d' : Int}

theorem zero_right (h : IsEuclid gcd) (a : Int) : gcd a 0 = a := by
  rw [h, if_pos rfl]

theorem step (h : IsEuclid gcd) (a : Int) (hb : b ≠ 0) : gcd a b = gcd b (a.tmod b) := by
  rw [h, if_neg hb]

/-- What holds of `a` and zero, and of `a` and `b` when it holds of `b` and the
    remainder, holds of all arguments. -/
theorem induction {motive : Int → Int → Prop} (hzero : ∀ a, motive a 0)
    (hstep : ∀ a b, b ≠ 0 → motive b (a.tmod b) → motive a b) (a b : Int) : motive a b := by
  induction hsize : b.natAbs using Nat.strong_induction_on generalizing a b with
  | _ size ih =>
    by_cases hb : b = 0
    · exact hb ▸ hzero a
    · exact hstep a b hb (ih _ (hsize ▸ natAbs_tmod_lt a hb) b (a.tmod b) rfl)

theorem natAbs_eq (h : IsEuclid gcd) (a b : Int) : (gcd a b).natAbs = Int.gcd a b := by
  induction a, b using induction with
  | hzero a => rw [h.zero_right, Int.gcd_zero_right]
  | hstep a b hb ih =>
    rw [h.step a hb, ih, Int.gcd_def, Int.gcd_def, Int.natAbs_tmod, Nat.gcd_comm, ← Nat.gcd_rec, Nat.gcd_comm]

theorem ne_zero (h : IsEuclid gcd) (a : Int) (hb : b ≠ 0) : gcd a b ≠ 0 := by
  rw [← Int.natAbs_ne_zero, h.natAbs_eq]
  exact fun hzero => hb (Int.gcd_eq_zero_iff.mp hzero).2

theorem dvd_left (h : IsEuclid gcd) (a b : Int) : gcd a b ∣ a := by
  rw [← Int.natAbs_dvd, h.natAbs_eq]
  exact Int.gcd_dvd_left ..

theorem dvd_right (h : IsEuclid gcd) (a b : Int) : gcd a b ∣ b := by
  rw [← Int.natAbs_dvd, h.natAbs_eq]
  exact Int.gcd_dvd_right ..

/-- Without negative arguments the result is not negative. -/
theorem nonneg (h : IsEuclid gcd) (a b : Int) : 0 ≤ a → 0 ≤ b → 0 ≤ gcd a b := by
  induction a, b using induction with
  | hzero a =>
    intro ha _
    rwa [h.zero_right]
  | hstep a b hb ih =>
    intro ha hb'
    rw [h.step a hb]
    exact ih hb' (Int.tmod_nonneg b ha)

theorem mul_tmod_mul (k a b : Int) : (k * a).tmod (k * b) = k * a.tmod b := by
  obtain hk | rfl | hk := lt_trichotomy k 0
  · obtain ⟨j, rfl⟩ : ∃ j, k = -j := ⟨-k, (neg_neg k).symm⟩
    rw [Int.neg_mul, Int.neg_mul, Int.tmod_neg, Int.neg_tmod, Int.mul_tmod_mul_of_pos _ _ (by omega), Int.neg_mul]
  · simp
  · exact Int.mul_tmod_mul_of_pos _ _ hk

/-- A common factor is taken out with its sign. -/
theorem mul_left (h : IsEuclid gcd) (k a b : Int) : gcd (k * a) (k * b) = k * gcd a b := by
  induction a, b using induction with
  | hzero a => rw [mul_zero, h.zero_right, h.zero_right]
  | hstep a b hb ih =>
    obtain rfl | hk := eq_or_ne k 0
    · simp [h.zero_right]
    · rw [h.step (k * a) (mul_ne_zero hk hb), mul_tmod_mul, ih, h.step a hb]

/-- Divided by its result the arguments have the result 1, not -1. -/
theorem quotients (h : IsEuclid gcd) (a : Int) (hb : b ≠ 0) : gcd (a.tdiv (gcd a b)) (b.tdiv (gcd a b)) = 1 := by
  have hmul := h.mul_left (gcd a b) (a.tdiv (gcd a b)) (b.tdiv (gcd a b))
  rw [Int.mul_tdiv_cancel' (h.dvd_left a b), Int.mul_tdiv_cancel' (h.dvd_right a b)] at hmul
  exact mul_left_cancel₀ (h.ne_zero a hb) (by rw [← hmul, mul_one])

/-- Pairs with the result 1 are determined by their ratio. -/
theorem eq_of_proportional (h : IsEuclid gcd) (hnd : gcd n d = 1) (hnd' : gcd n' d' = 1) (hd : d ≠ 0)
    (hratio : n * d' = n' * d) : n = n' ∧ d = d' := by
  have hscaled : d' * gcd n d = d * gcd n' d' := by
    rw [← h.mul_left, ← h.mul_left, mul_comm d' n, mul_comm d n', hratio, mul_comm d' d]
  obtain rfl : d' = d := by simpa [hnd, hnd'] using hscaled
  exact ⟨mul_right_cancel₀ hd hratio, rfl⟩

end IsEuclid

end truncated_euclid
