import Mathlib.Algebra.BigOperators.Ring.Finset
import Mathlib.Algebra.Order.BigOperators.Group.Finset
import Mathlib.Algebra.Order.Ring.Int
import Mathlib.Tactic.Ring

open Finset

namespace linear_congruential

variable (a b m : Int)

def next (s : Int) : Int := (a * s + b) % m

/-- The sum of the `n` numbers after the seed. -/
def total (n : Nat) (s : Int) : Int := ∑ k ∈ range n, (next a b m)^[k + 1] s

/-- The `k`-th number, without those before it. -/
def nth (s : Int) (k : Nat) : Int := (a ^ k * s + b * ∑ i ∈ range k, a ^ i) % m

variable {a b m} {s : Int} {k n : Nat}

theorem next_bounds (hm : 0 < m) : 0 ≤ next a b m s ∧ next a b m s < m :=
  ⟨Int.emod_nonneg _ hm.ne', Int.emod_lt_of_pos _ hm⟩

theorem iterate_next_bounds (hm : 0 < m) : 0 ≤ (next a b m)^[k + 1] s ∧ (next a b m)^[k + 1] s < m := by
  rw [Function.iterate_succ_apply']
  exact next_bounds hm

theorem next_nth : next a b m (nth a b m s k) = nth a b m s (k + 1) := by
  rw [next, nth, nth, Int.add_emod, Int.mul_emod, Int.emod_emod, ← Int.mul_emod, ← Int.add_emod, sum_range_succ']
  congr 1
  simp only [pow_succ, ← sum_mul]
  ring

theorem iterate_next_eq_nth : (next a b m)^[k + 1] s = nth a b m s (k + 1) := by
  induction k with
  | zero =>
    rw [← next_nth, Function.iterate_one, nth]
    simp [next, Int.add_emod, Int.mul_emod]
  | succ k ih => rw [Function.iterate_succ_apply', ih, next_nth]

theorem total_eq_sum_nth : total a b m n s = ∑ k ∈ range n, nth a b m s (k + 1) :=
  sum_congr rfl fun _ _ => iterate_next_eq_nth

theorem total_nonneg (hm : 0 < m) : 0 ≤ total a b m n s := sum_nonneg fun _ _ => (iterate_next_bounds hm).1

theorem total_le (hm : 0 < m) : total a b m n s ≤ n * (m - 1) := by
  have hle : ∀ k ∈ range n, (next a b m)^[k + 1] s ≤ m - 1 := fun k _ =>
    Int.le_sub_one_of_lt (iterate_next_bounds hm).2
  have hsum := sum_le_card_nsmul (range n) _ (m - 1) hle
  rwa [card_range, nsmul_eq_mul] at hsum

theorem total_zero : total a b m 0 s = 0 := rfl

theorem total_succ : total a b m (n + 1) s = next a b m s + total a b m n (next a b m s) := by
  rw [total, sum_range_succ', add_comm]
  rfl

theorem total_add : total a b m (k + n) s = total a b m k s + total a b m n ((next a b m)^[k] s) := by
  rw [total, sum_range_add]
  congr 1
  apply sum_congr rfl
  intro i _
  rw [← Function.iterate_add_apply]
  congr 1
  omega

end linear_congruential
