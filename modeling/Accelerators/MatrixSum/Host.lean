import Accelerators.MatrixSum

open assignments counters

namespace accelerators.matrix_sum

variable {E : Type} {add : E → E → E} {nx ny : Int32}

/-- `k` sums from the index `i` on, in order. -/
def sums (add : E → E → E) (i : Int) (k : Nat) : List (Assignment Cell E) :=
  (List.range k).map fun j : Nat => sumAt add (i + j)

theorem sums_add (i : Int) (k l : Nat) : sums add i (k + l) = sums add i k ++ sums add (i + k) l := by
  rw [sums, List.range_add, List.map_append, List.map_map]
  congr 1
  apply List.map_congr_left
  intro j _
  rw [Function.comp_apply, Int.natCast_add, Int.add_assoc]

/-- With the three pointers at one index, a row is summed from there on. -/
theorem foldl_sum (l : List Int32) (i : Int) (memory : Cell → E) :
    l.foldl (Host.sum add) ⟨i, i, i, memory⟩ =
      ⟨i, i, i, sequential (l.map fun ix => sumAt add (i + ix.toInt)) memory⟩ := by
  induction l generalizing memory with
  | nil => rfl
  | cons ix l ih => exact ih _

theorem row_eq (i : Int) (memory : Cell → E) :
    ((counter 0 nx).foldl (Host.sum add) ⟨i, i, i, memory⟩) =
      ⟨i, i, i, sequential (sums add i nx.toInt.toNat) memory⟩ := by
  rw [foldl_sum, map_counter_zero fun x => sumAt add (i + x), sums]

/-- The rows follow each other without a gap. -/
theorem foldl_rows (hnx : 0 ≤ nx.toInt) (l : List Int32) (i : Int) (memory : Cell → E) :
    (l.foldl (fun h _ => ((counter 0 nx).foldl (Host.sum add) h).advance nx) ⟨i, i, i, memory⟩).memory =
      sequential (sums add i (l.length * nx.toInt.toNat)) memory := by
  induction l generalizing i memory with
  | nil => rw [List.length_nil, Nat.zero_mul]; rfl
  | cons iy l ih =>
    have hnext : (i + nx.toInt : Int) = i + nx.toInt.toNat := by rw [Int.toNat_of_nonneg hnx]
    rw [List.foldl_cons, row_eq, Host.advance, ih, List.length_cons, Nat.add_mul, Nat.one_mul, Nat.add_comm,
      sums_add, sequential_append, hnext]

/-- The host sums the elements one after the other. -/
theorem sumMatrixOnHost_eq (hnx : 0 ≤ nx.toInt) (memory : Cell → E) :
    sumMatrixOnHost add nx ny memory = sequential (sums add 0 (ny.toInt.toNat * nx.toInt.toNat)) memory := by
  rw [sumMatrixOnHost, foldl_rows hnx, length_counter_zero]

end accelerators.matrix_sum
