import Mathlib.Data.List.Range

namespace counters

theorem toNat_toUInt32 {x : Int32} (hx : 0 ≤ x.toInt) : (x.toUInt32.toNat : Int) = x.toInt := by
  rw [Int32.toNat_toUInt32_of_le]
  · exact Int.toNat_of_nonneg hx
  · rwa [Int32.le_iff_toInt_le, Int32.toInt_zero]

theorem toInt_toInt32 {x : UInt32} (hx : x.toNat < 2147483648) : x.toInt32.toInt = x.toNat :=
  BitVec.toInt_eq_toNat_of_lt (x := x.toBitVec) (by rw [UInt32.toNat_toBitVec]; omega)

theorem toInt_add_one {i n : Int32} (h : i < n) : (i + 1).toInt = i.toInt + 1 := by
  rw [Int32.lt_iff_toInt_lt] at h
  have hlower := i.le_toInt
  have hupper := n.toInt_lt
  rw [Int32.toInt_add, Int32.toInt_one, Int.bmod_eq_of_le (by omega) (by omega)]

/-- The values of the counter in `for (int i = first; i < n; i++)`. -/
def counter (i n : Int32) : List Int32 := if i < n then i :: counter (i + 1) n else []
termination_by (n.toInt - i.toInt).toNat
decreasing_by
  rename_i h
  have hnext := toInt_add_one h
  rw [Int32.lt_iff_toInt_lt] at h
  omega

theorem map_toInt_counter (i n : Int32) :
    (counter i n).map Int32.toInt = (List.range (n.toInt - i.toInt).toNat).map fun k : Nat => i.toInt + k := by
  fun_induction counter i n with
  | case1 i h ih =>
    have hnext := toInt_add_one h
    rw [Int32.lt_iff_toInt_lt] at h
    have hsucc : (n.toInt - i.toInt).toNat = (n.toInt - (i + 1).toInt).toNat + 1 := by omega
    have hshift : (fun k : Nat => (i + 1).toInt + (k : Int)) = (fun k : Nat => i.toInt + (k : Int)) ∘ Nat.succ := by
      funext k
      rw [hnext, Function.comp_apply, Nat.succ_eq_add_one]
      omega
    rw [List.map_cons, ih, hsucc, List.range_succ_eq_map, List.map_cons, List.map_map, hshift, Int.natCast_zero,
      Int.add_zero]
  | case2 i h =>
    rw [Int32.lt_iff_toInt_lt] at h
    rw [Int.toNat_of_nonpos (by omega)]
    rfl

/-- A function of the counter, for the loop from `0`. -/
theorem map_counter_zero {β : Type} (f : Int → β) (n : Int32) :
    ((counter 0 n).map fun i => f i.toInt) = (List.range n.toInt.toNat).map fun k : Nat => f k := by
  have hcomp : (fun i : Int32 => f i.toInt) = f ∘ Int32.toInt := rfl
  rw [hcomp, ← List.map_map, map_toInt_counter, List.map_map, Int32.toInt_zero, Int.sub_zero]
  apply List.map_congr_left
  intro k _
  rw [Function.comp_apply, Int.zero_add]

theorem length_counter_zero (n : Int32) : (counter 0 n).length = n.toInt.toNat := by
  have hlength := congrArg List.length (map_toInt_counter 0 n)
  rwa [List.length_map, List.length_map, List.length_range, Int32.toInt_zero, Int.sub_zero] at hlength

theorem mem_counter {i n j : Int32} : j ∈ counter i n ↔ i ≤ j ∧ j < n := by
  have hmem : j ∈ counter i n ↔ j.toInt ∈ (counter i n).map Int32.toInt :=
    (List.mem_map_of_injective fun _ _ => Int32.toInt_inj.mp).symm
  rw [hmem, map_toInt_counter, List.mem_map, Int32.le_iff_toInt_le, Int32.lt_iff_toInt_lt]
  constructor
  · rintro ⟨k, hk, hj⟩
    rw [List.mem_range] at hk
    omega
  · rintro ⟨hle, hlt⟩
    exact ⟨(j.toInt - i.toInt).toNat, List.mem_range.mpr (by omega), by omega⟩

end counters
