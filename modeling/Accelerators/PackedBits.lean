import Mathlib.Data.List.Range

namespace packed_bits

variable {C : Type} {bit : C → Nat → Bool} {w : Nat} {cells : List C} {c : C} {i j k : Nat}

/-- The bit at a position of the cells, each of which has `w` bits. -/
def member (bit : C → Nat → Bool) (w : Nat) (cells : List C) (k : Nat) : Bool :=
  cells[k / w]?.any fun c => bit c (k % w)

/-- The positions of all bits that are set, in order. -/
def positions (bit : C → Nat → Bool) (w : Nat) (cells : List C) : List Nat :=
  (List.range (cells.length * w)).filter (member bit w cells)

theorem positions_nil : positions bit w [] = [] := by
  rw [positions, List.length_nil, Nat.zero_mul]
  rfl

theorem member_append_left (hk : k < cells.length * w) : member bit w (cells ++ [c]) k = member bit w cells k := by
  have hlt : k / w < cells.length := Nat.div_lt_of_lt_mul (by rwa [Nat.mul_comm])
  rw [member, List.getElem?_append_left hlt, member]

theorem member_append_last (hj : j < w) : member bit w (cells ++ [c]) (cells.length * w + j) = bit c j := by
  have hdiv : (cells.length * w + j) / w = cells.length := by
    rw [Nat.mul_comm, Nat.mul_add_div (by omega), Nat.div_eq_of_lt hj, Nat.add_zero]
  have hmod : (cells.length * w + j) % w = j := by
    rw [Nat.mul_comm, Nat.mul_add_mod, Nat.mod_eq_of_lt hj]
  rw [member, hdiv, hmod, List.getElem?_concat_length]
  rfl

/-- The last cell is gone through after all others. -/
theorem positions_append_singleton : positions bit w (cells ++ [c]) =
    positions bit w cells ++ ((List.range w).filter (bit c)).map (cells.length * w + ·) := by
  have hleft : (List.range (cells.length * w)).filter (member bit w (cells ++ [c])) = positions bit w cells := by
    apply List.filter_congr
    intro k hk
    exact member_append_left (List.mem_range.mp hk)
  have hright : (List.range w).filter (member bit w (cells ++ [c]) ∘ (cells.length * w + ·)) =
      (List.range w).filter (bit c) := by
    apply List.filter_congr
    intro j hj
    exact member_append_last (List.mem_range.mp hj)
  rw [positions, List.length_append, List.length_singleton, Nat.add_mul, Nat.one_mul, List.range_add,
    List.filter_append, hleft, List.filter_map, hright]

/-- Setting a bit of one cell adds its position to the members. -/
theorem member_set (hi : i < cells.length) (hj : j < w) (hc : ∀ b, bit c b = (bit cells[i] b || b == j)) (k : Nat) :
    member bit w (cells.set i c) k = (member bit w cells k || k == i * w + j) := by
  have hpos : 0 < w := by omega
  by_cases hcell : k / w = i
  · have hk : (k % w == j) = (k == i * w + j) := by
      have hsplit := Nat.div_add_mod' k w
      rw [hcell] at hsplit
      rw [Bool.eq_iff_iff, beq_iff_eq, beq_iff_eq]
      omega
    simp [member, hcell, hi, hc, hk]
  · have hne : k ≠ i * w + j := by
      rintro rfl
      rw [Nat.mul_comm, Nat.mul_add_div hpos, Nat.div_eq_of_lt hj] at hcell
      exact hcell rfl
    simp [member, List.getElem?_set_ne (Ne.symm hcell), hne]

end packed_bits
