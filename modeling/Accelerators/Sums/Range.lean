import Mathlib.Algebra.Ring.Int.Defs
import Accelerators.Sums

open loops

namespace accelerators.sums

/-- The numbers from `a` to `b`. -/
def upTo (a b : Int32) : List Int32 :=
  (List.range (b.toInt - a.toInt + 1).toNat).map fun k : Nat => Int32.ofInt (a.toInt + k)

variable {a b : Int32}

theorem iterate_add_one (k : Nat) : (fun a : Int32 => a + 1)^[k] a = Int32.ofInt (a.toInt + k) := by
  induction k with
  | zero => simp
  | succ k ih =>
    rw [Function.iterate_succ_apply', ih, Int.natCast_succ, ← Int.add_assoc, Int32.ofInt_add _ 1]
    rfl

theorem upTo_eq_iterate : upTo a b = List.iterate (fun a => a + 1) a (b.toInt - a.toInt + 1).toNat := by
  rw [upTo, ← List.range_map_iterate]
  simp only [iterate_add_one]

theorem toInt_iterate_of_le {k : Nat} (h : a.toInt + k ≤ Int32.maxValue.toInt) :
    ((fun a : Int32 => a + 1)^[k] a).toInt = a.toInt + k := by
  have hlower := a.le_toInt
  rw [Int32.toInt_maxValue] at h
  rw [iterate_add_one, Int32.toInt_ofInt_of_le (by omega) (by omega)]

/-- Below the largest number, the counter passes its bound without wrapping around. -/
theorem stopsAfter_upTo (hb : b < Int32.maxValue) :
    StopsAfter (fun a => decide (a > b)) (fun a => a + 1) (upTo a b).length a := by
  rw [Int32.lt_iff_toInt_lt] at hb
  rw [upTo, List.length_map, List.length_range]
  constructor
  · intro i hi
    rw [decide_eq_false_iff_not, gt_iff_lt, Int32.lt_iff_toInt_lt, toInt_iterate_of_le (by omega)]
    omega
  · rw [decide_eq_true_iff, gt_iff_lt, Int32.lt_iff_toInt_lt]
    by_cases hle : a.toInt ≤ b.toInt
    · rw [toInt_iterate_of_le (by omega)]
      omega
    · have hzero : (b.toInt - a.toInt + 1).toNat = 0 := by omega
      rw [hzero]
      exact Int.lt_of_not_ge hle

theorem foldr_add (f : Int32 → Int32) (l : List Int32) :
    l.foldr (fun a rest => f a + rest) 0 = Int32.ofInt (l.map fun i => (f i).toInt).sum := by
  induction l with
  | nil => rfl
  | cons i l ih => rw [List.foldr_cons, List.map_cons, List.sum_cons, Int32.ofInt_add, Int32.ofInt_toInt, ih]

/-- The accumulator adds in the other order. -/
theorem foldl_add (f : Int32 → Int32) (l : List Int32) (acc : Int32) :
    l.foldl (fun acc a => acc + f a) acc = acc + Int32.ofInt (l.map fun i => (f i).toInt).sum := by
  induction l generalizing acc with
  | nil => exact (Int32.add_zero acc).symm
  | cons i l ih =>
    rw [List.foldl_cons, ih, List.map_cons, List.sum_cons, Int32.ofInt_add, Int32.ofInt_toInt, Int32.add_assoc]

section
variable (hb : b < Int32.maxValue) {fuel : Nat} (hfuel : (upTo a b).length < fuel) (f : Int32 → Int32)
include hb hfuel

theorem sum_eq : sum f a b fuel = some (Int32.ofInt ((upTo a b).map fun i => (f i).toInt).sum) := by
  rw [sum, (stopsAfter_upTo hb).recur hfuel, upTo_eq_iterate, List.length_iterate, foldr_add]

theorem sumBig_eq : sumBig f a b fuel = some (Int32.ofInt ((upTo a b).map fun i => (f i).toInt).sum) := by
  rw [sumBig, (stopsAfter_upTo hb).accumulate hfuel, upTo_eq_iterate, List.length_iterate, foldl_add, Int32.zero_add]

end

/-- Below the largest number all versions end, and with the same sum. -/
theorem sums_agree (f : Int32 → Int32) {a b : Int32} (hb : b < Int32.maxValue) {fuel : Nat}
    (hfuel : (upTo a b).length < fuel) :
    sum f a b fuel = some (Int32.ofInt ((upTo a b).map fun i => (f i).toInt).sum) ∧
    sumCurring f a b fuel = sum f a b fuel ∧ sumBig f a b fuel = sum f a b fuel ∧
    (a > b → sum f a b fuel = some 0) ∧
    sumInts a b fuel = sum (fun x => x) a b fuel ∧ sumCubes a b fuel = sum cube a b fuel := by
  have hsum := sum_eq hb hfuel f
  refine ⟨hsum, rfl, ?_, fun hempty => ?_, rfl, rfl⟩
  · rw [hsum, sumBig_eq hb hfuel]
  · have hnil : upTo a b = [] := by
      rw [gt_iff_lt, Int32.lt_iff_toInt_lt] at hempty
      rw [upTo, Int.toNat_of_nonpos (by omega)]
      rfl
    rw [hsum, hnil]
    rfl

theorem sums_agree_across_zero : sum cube (-2) 3 7 = some 27 ∧ sumCurring cube (-2) 3 7 = sum cube (-2) 3 7 ∧
    sumBig cube (-2) 3 7 = sum cube (-2) 3 7 := by
  have hfuel : (upTo (-2) 3).length < 7 := by decide
  obtain ⟨hsum, hcurring, hbig, -⟩ := sums_agree cube (by decide) hfuel
  exact ⟨hsum, hcurring, hbig⟩

end accelerators.sums
