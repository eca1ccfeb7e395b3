import Mathlib.Data.Nat.Factorial.Basic
import Accelerators.Sums.Range

open loops

namespace accelerators.sums

namespace W1

/-- Multiplies on the way back from `0`. -/
def factorial (n : Int32) (fuel : Nat) : Option Int32 :=
  recur (fun n => n == 0) (fun n => n - 1) 1 (fun n rest => n * rest) fuel n

end W1

def factorialIter.loop (acc n : Int32) (fuel : Nat) : Option Int32 :=
  accumulate (fun n => n == 0) (fun n => n - 1) (fun acc n => acc * n) fuel n acc

/-- The same text in both objects. Its result type is `Unit`, so the product is dropped. -/
def factorialIter (n : Int32) (fuel : Nat) : Option Unit :=
  (factorialIter.loop 1 n fuel).map fun _ => ()

theorem ofNat_succ_sub_one (k : Nat) : Int32.ofNat (k + 1) - 1 = Int32.ofNat k := by
  rw [Int32.ofNat_add]
  exact Int32.add_sub_cancel _ 1

theorem iterate_sub_one {k i : Nat} (h : i ≤ k) :
    (fun n : Int32 => n - 1)^[i] (Int32.ofNat k) = Int32.ofNat (k - i) := by
  induction i with
  | zero => rfl
  | succ i ih =>
    have hpred : k - i = k - (i + 1) + 1 := by omega
    rw [Function.iterate_succ_apply', ih (by omega), hpred, ofNat_succ_sub_one]

theorem ofNat_ne_zero {k : Nat} (hpos : 0 < k) (hlt : k < 2 ^ 31) : Int32.ofNat k ≠ 0 := by
  intro hzero
  have hval := congrArg Int32.toInt hzero
  rw [Int32.toInt_ofNat_of_lt hlt, Int32.toInt_zero] at hval
  omega

/-- A counter that goes down from a number that is not negative gets to `0`. -/
theorem stopsAfter_down {k : Nat} (hlt : k < 2 ^ 31) :
    StopsAfter (fun n : Int32 => n == 0) (fun n => n - 1) k (Int32.ofNat k) := by
  constructor
  · intro i hi
    rw [iterate_sub_one hi.le, beq_eq_false_iff_ne]
    exact ofNat_ne_zero (by omega) (by omega)
  · rw [iterate_sub_one (Nat.le_refl k), Nat.sub_self]
    rfl

theorem iterate_down_succ (k : Nat) : List.iterate (fun n : Int32 => n - 1) (Int32.ofNat (k + 1)) (k + 1) =
    Int32.ofNat (k + 1) :: List.iterate (fun n => n - 1) (Int32.ofNat k) k := by
  rw [List.iterate, ofNat_succ_sub_one]

theorem ofNat_factorial_succ (k : Nat) :
    Int32.ofNat (k + 1).factorial = Int32.ofNat (k + 1) * Int32.ofNat k.factorial := by
  rw [Nat.factorial_succ, Int32.ofNat_mul]

/-- The product on the way back. -/
theorem foldr_down (k : Nat) : (List.iterate (fun n : Int32 => n - 1) (Int32.ofNat k) k).foldr
    (fun n rest => n * rest) 1 = Int32.ofNat k.factorial := by
  induction k with
  | zero => rfl
  | succ k ih => rw [iterate_down_succ, List.foldr_cons, ih, ofNat_factorial_succ]

/-- The product in the accumulator, in the other order. -/
theorem foldl_down (k : Nat) (acc : Int32) : (List.iterate (fun n : Int32 => n - 1) (Int32.ofNat k) k).foldl
    (fun acc n => acc * n) acc = acc * Int32.ofNat k.factorial := by
  induction k generalizing acc with
  | zero => exact (Int32.mul_one acc).symm
  | succ k ih => rw [iterate_down_succ, List.foldl_cons, ih, ofNat_factorial_succ, Int32.mul_assoc]

theorem upTo_one {k : Nat} (hlt : k < 2 ^ 31) :
    upTo 1 (Int32.ofNat k) = (List.range k).map fun i => Int32.ofNat (i + 1) := by
  have hcount : (k : Int) - 1 + 1 = k := by omega
  rw [upTo, Int32.toInt_ofNat_of_lt hlt, Int32.toInt_one, hcount, Int.toNat_natCast]
  apply List.map_congr_left
  intro i _
  rw [Int.add_comm]
  rfl

theorem map_range_eq_reverse (k : Nat) : (List.range k).map (fun i => Int32.ofNat (i + 1)) =
    (List.iterate (fun n => n - 1) (Int32.ofNat k) k).reverse := by
  induction k with
  | zero => rfl
  | succ k ih => rw [iterate_down_succ, List.reverse_cons, ← ih, List.range_succ, List.map_append, List.map_singleton]

/-- The numbers from `1` up are those down to `1` in reverse. -/
theorem upTo_one_eq_reverse {k : Nat} (hlt : k < 2 ^ 31) :
    upTo 1 (Int32.ofNat k) = (List.iterate (fun n => n - 1) (Int32.ofNat k) k).reverse := by
  rw [upTo_one hlt, map_range_eq_reverse]

theorem product_eq {a b : Int32} (hb : b < Int32.maxValue) {fuel : Nat} (hfuel : (upTo a b).length < fuel)
    (f : Int32 → Int32) : product f a b fuel = some ((upTo a b).foldr (fun a rest => f a * rest) 1) := by
  rw [product, (stopsAfter_upTo hb).recur hfuel, upTo_eq_iterate, List.length_iterate]

section
variable {k fuel : Nat} (hlt : k < 2 ^ 31) (hfuel : k < fuel)
include hlt hfuel

theorem W1.factorial_eq : W1.factorial (Int32.ofNat k) fuel = some (Int32.ofNat k.factorial) := by
  rw [W1.factorial, (stopsAfter_down hlt).recur hfuel, foldr_down]

theorem factorialIter.loop_eq (acc : Int32) :
    factorialIter.loop acc (Int32.ofNat k) fuel = some (acc * Int32.ofNat k.factorial) := by
  rw [factorialIter.loop, (stopsAfter_down hlt).accumulate hfuel, foldl_down]

/-- The ascending product is the descending one with its factors exchanged. -/
theorem factorial_eq (hmax : Int32.ofNat k < Int32.maxValue) :
    factorial (Int32.ofNat k) fuel = some (Int32.ofNat k.factorial) := by
  have hlength : (upTo 1 (Int32.ofNat k)).length = k := by
    rw [upTo_one_eq_reverse hlt, List.length_reverse, List.length_iterate]
  have hflip : (fun acc a : Int32 => a * acc) = fun acc a => acc * a := by
    funext acc a
    exact Int32.mul_comm a acc
  rw [factorial, product_eq hmax (by rwa [hlength]), upTo_one_eq_reverse hlt, List.foldr_reverse, hflip, foldl_down,
    Int32.one_mul]

end

/-- All three factorials end, and with the same wrapped product. -/
theorem factorials_agree {n : Int32} (hnonneg : 0 ≤ n) (hmax : n < Int32.maxValue) {fuel : Nat}
    (hfuel : n.toInt < fuel) :
    W1.factorial n fuel = some (Int32.ofNat n.toInt.toNat.factorial) ∧
    factorialIter.loop 1 n fuel = some (Int32.ofNat n.toInt.toNat.factorial) ∧
    factorial n fuel = some (Int32.ofNat n.toInt.toNat.factorial) := by
  rw [Int32.le_iff_toInt_le, Int32.toInt_zero] at hnonneg
  have hupper := n.toInt_lt
  obtain ⟨k, hk⟩ := Int.eq_ofNat_of_zero_le hnonneg
  obtain rfl : Int32.ofNat k = n := by
    rw [← Int32.ofInt_toInt n, hk]
    rfl
  rw [hk, Int.toNat_natCast]
  have hlt : k < 2 ^ 31 := by omega
  have hfuel' : k < fuel := by omega
  refine ⟨W1.factorial_eq hlt hfuel', ?_, factorial_eq hlt hfuel' hmax⟩
  rw [factorialIter.loop_eq hlt hfuel', Int32.one_mul]

/-- The product of the numbers up to `13` no longer fits. -/
theorem factorials_agree_wrapped : W1.factorial 13 14 = some 1932053504 ∧
    factorialIter.loop 1 13 14 = some 1932053504 ∧ factorial 13 14 = some 1932053504 :=
  factorials_agree (by decide) (by decide) (by decide)

end accelerators.sums
