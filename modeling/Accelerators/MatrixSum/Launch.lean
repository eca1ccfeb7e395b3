import Accelerators.Interleaving.Assignments
import Accelerators.MatrixSum.Host

open assignments counters interleaving transition_system

namespace accelerators.matrix_sum

variable {E : Type} {add : E → E → E} {nx ny : Int32}

theorem toInt_pos (hnx : 1 ≤ nx) : 0 < nx.toInt := by
  rw [Int32.le_iff_toInt_le, Int32.toInt_one] at hnx
  exact hnx

theorem cell_bounds {x y nx ny : Int} (hx : 0 ≤ x ∧ x < nx) (hy : 0 ≤ y ∧ y < ny) :
    0 ≤ y * nx + x ∧ y * nx + x < nx * ny := by
  have hpos : 0 ≤ y * nx := Int.mul_nonneg hy.1 (by omega)
  have hrow : (y + 1) * nx ≤ ny * nx := Int.mul_le_mul_of_nonneg_right (by omega) (by omega)
  rw [Int.add_mul, Int.one_mul, Int.mul_comm ny nx] at hrow
  omega

/-- In a launch that fits, neither the product nor the sum of an index overflows. -/
theorem idx_toInt (hsize : nx.toInt * ny.toInt < 2 ^ 31) {iy : Int32} (hiy : 0 ≤ iy ∧ iy < ny) {ix : UInt32}
    (hix : (ix.toNat : Int) < nx.toInt) :
    (iy * nx).toInt = iy.toInt * nx.toInt ∧ (idx nx iy ix).toInt = iy.toInt * nx.toInt + ix.toNat := by
  rw [Int32.le_iff_toInt_le, Int32.toInt_zero, Int32.lt_iff_toInt_lt] at hiy
  obtain ⟨hnonneg, hlt⟩ := cell_bounds ⟨Int.natCast_nonneg ix.toNat, hix⟩ hiy
  have hrow : 0 ≤ iy.toInt * nx.toInt := Int.mul_nonneg hiy.1 (by omega)
  have hproduct : (iy * nx).toInt = iy.toInt * nx.toInt := by
    rw [Int32.toInt_mul, Int.bmod_eq_of_le (by omega) (by omega)]
  have hunsigned : ((iy * nx).toUInt32.toNat : Int) = iy.toInt * nx.toInt := by
    rw [toNat_toUInt32 (by omega), hproduct]
  have hsum : ((iy * nx).toUInt32 + ix).toNat = (iy * nx).toUInt32.toNat + ix.toNat := by
    rw [UInt32.toNat_add, Nat.mod_eq_of_lt (by omega)]
  refine ⟨hproduct, ?_⟩
  rw [idx, toInt_toInt32 (by omega), hsum, Int.natCast_add, hunsigned]

/-- There are enough blocks, and no more than needed. -/
theorem grid_toNat (hnx : 1 ≤ nx) : ((grid nx).toNat : Int) = (nx.toInt + 31) / 32 := by
  have hupper := nx.toInt_lt
  have hpos := toInt_pos hnx
  have hunsigned := toNat_toUInt32 hpos.le
  have hblock : block.toNat = 32 := rfl
  have hadd : (nx.toUInt32 + block).toNat = nx.toUInt32.toNat + 32 := by
    rw [UInt32.toNat_add, hblock, Nat.mod_eq_of_lt (by omega)]
  have hsub : (nx.toUInt32 + block - 1).toNat = nx.toUInt32.toNat + 31 := by
    rw [UInt32.toNat_sub_of_le, hadd]
    · rfl
    · rw [UInt32.le_iff_toNat_le, hadd]
      exact Nat.le_add_left 1 _
  rw [grid, UInt32.toNat_div, hsub, hblock]
  omega

/-- The column of a thread. -/
def column (t : ThreadId nx) : Int := t.2 + t.1 * 32

theorem column_eq (hnx : 1 ≤ nx) (t : ThreadId nx) :
    ((UInt32.ofNat t.2 + UInt32.ofNat t.1 * block).toNat : Int) = column t := by
  obtain ⟨⟨b, hb⟩, ⟨x, hx⟩⟩ := t
  change ((UInt32.ofNat x + UInt32.ofNat b * block).toNat : Int) = x + b * 32
  have hgrid := grid_toNat hnx
  have hupper := nx.toInt_lt
  have hblock : block.toNat = 32 := rfl
  rw [hblock] at hx
  have hx' : (UInt32.ofNat x).toNat = x := UInt32.toNat_ofNat_of_lt' (Nat.lt_trans hx (by decide))
  have hb' : (UInt32.ofNat b).toNat = b := UInt32.toNat_ofNat_of_lt' (Nat.lt_trans hb (UInt32.toNat_lt_size _))
  rw [UInt32.toNat_add, UInt32.toNat_mul, hx', hb', hblock]
  omega

theorem column_nonneg (t : ThreadId nx) : 0 ≤ column t := by
  rw [column]
  omega

/-- A thread in a column of the matrix goes down the rows of that column. -/
theorem launch_eq (hnx : 1 ≤ nx) (hsize : nx.toInt * ny.toInt < 2 ^ 31) (t : ThreadId nx) :
    launch add nx ny t = if column t < nx.toInt then
      (List.range ny.toInt.toNat).map fun k : Nat => sumAt add (k * nx.toInt + column t) else [] := by
  have hcolumn := column_eq hnx t
  have hbound := toNat_toUInt32 (toInt_pos hnx).le
  have hiff : UInt32.ofNat t.2 + UInt32.ofNat t.1 * block < nx.toUInt32 ↔ column t < nx.toInt := by
    rw [UInt32.lt_iff_toNat_lt]
    omega
  rw [launch, sumMatrixOnGPU1D, if_congr hiff rfl rfl]
  split_ifs with hlt
  · rw [← map_counter_zero fun y => sumAt add (y * nx.toInt + column t)]
    apply List.map_congr_left
    intro iy hiy
    rw [(idx_toInt hsize (mem_counter.mp hiy) (by omega)).2, hcolumn]
  · rfl

theorem sumAt_apart {i j : Int} (h : i ≠ j) : Apart (sumAt add i) (sumAt add j) where
  target_ne := fun heq => h (Cell.C.inj heq)
  not_source := by simp [sumAt]
  not_source' := by simp [sumAt]

theorem sums_pairwise (i : Int) (k : Nat) : (sums add i k).Pairwise Apart := by
  rw [sums, List.pairwise_map]
  apply List.pairwise_lt_range.imp
  intro j k hlt
  apply sumAt_apart
  omega

theorem mem_sums {i : Int} {k : Nat} {c : Assignment Cell E} :
    c ∈ sums add i k ↔ ∃ j, i ≤ j ∧ j < i + k ∧ c = sumAt add j := by
  rw [sums, List.mem_map]
  constructor
  · rintro ⟨j, hj, rfl⟩
    rw [List.mem_range] at hj
    exact ⟨i + j, by omega, by omega, rfl⟩
  · rintro ⟨j, hle, hlt, rfl⟩
    have hj : i + (j - i).toNat = j := by omega
    exact ⟨(j - i).toNat, List.mem_range.mpr (by omega), by rw [hj]⟩

/-- An index determines its row and its column. -/
theorem cell_inj {x y x' y' nx : Int} (hx : 0 ≤ x ∧ x < nx) (hx' : 0 ≤ x' ∧ x' < nx)
    (heq : y * nx + x = y' * nx + x') : y = y' ∧ x = x' := by
  have hrow : ∀ y x : Int, 0 ≤ x ∧ x < nx → (y * nx + x) / nx = y := by
    intro y x hx
    rw [Int.add_comm, Int.add_mul_ediv_right _ _ (by omega), Int.ediv_eq_zero_of_lt hx.1 hx.2, Int.zero_add]
  have hy : y = y' := by rw [← hrow y x hx, heq, hrow y' x' hx']
  subst hy
  exact ⟨rfl, Int.add_left_cancel heq⟩

theorem column_inj {t u : ThreadId nx} (h : column t = column u) : t = u := by
  obtain ⟨⟨b, hb⟩, ⟨x, hx⟩⟩ := t
  obtain ⟨⟨b', hb'⟩, ⟨x', hx'⟩⟩ := u
  have hblock : block.toNat = 32 := rfl
  simp only [column] at h
  rw [hblock] at hx hx'
  obtain rfl : b = b' := by omega
  obtain rfl : x = x' := by omega
  rfl

/-- Every column of the matrix has its thread. -/
theorem exists_column (hnx : 1 ≤ nx) {x : Int} (hx : 0 ≤ x ∧ x < nx.toInt) :
    ∃ t : ThreadId nx, column t = x := by
  have hgrid := grid_toNat hnx
  have hblock : block.toNat = 32 := rfl
  refine ⟨⟨⟨(x / 32).toNat, by omega⟩, ⟨(x % 32).toNat, by omega⟩⟩, ?_⟩
  simp only [column]
  omega

theorem lt_size_iff {i nx ny : Int} (hnx : 0 < nx) (hi : 0 ≤ i) :
    i < (ny.toNat * nx.toNat : Nat) ↔ i < nx * ny := by
  by_cases hny : 0 ≤ ny
  · rw [Int.natCast_mul, Int.toNat_of_nonneg hny, Int.toNat_of_nonneg hnx.le, Int.mul_comm]
  · have hempty : nx * ny ≤ 0 := Int.mul_nonpos_of_nonneg_of_nonpos hnx.le (by omega)
    rw [Int.toNat_of_nonpos (by omega), Nat.zero_mul]
    omega

section
variable (hnx : 1 ≤ nx) (hsize : nx.toInt * ny.toInt < 2 ^ 31)
include hnx hsize

theorem mem_launch {t : ThreadId nx} {c : Assignment Cell E} :
    c ∈ launch add nx ny t ↔
      column t < nx.toInt ∧ ∃ y, 0 ≤ y ∧ y < ny.toInt ∧ c = sumAt add (y * nx.toInt + column t) := by
  rw [launch_eq hnx hsize]
  split_ifs with hlt
  · rw [List.mem_map, and_iff_right hlt]
    constructor
    · rintro ⟨k, hk, rfl⟩
      rw [List.mem_range] at hk
      exact ⟨k, by omega, by omega, rfl⟩
    · rintro ⟨y, hy, hylt, rfl⟩
      exact ⟨y.toNat, List.mem_range.mpr (by omega), by rw [Int.toNat_of_nonneg hy]⟩
  · simp [hlt]

theorem launch_apart : AllApart (launch add nx ny) where
  own := by
    intro t
    rw [launch_eq hnx hsize]
    split_ifs with hlt
    · rw [List.pairwise_map]
      apply List.pairwise_lt_range.imp
      intro k l hkl
      apply sumAt_apart
      intro heq
      have hrow := (cell_inj ⟨column_nonneg t, hlt⟩ ⟨column_nonneg t, hlt⟩ heq).1
      omega
    · exact List.Pairwise.nil
  others := by
    intro t u hne c hc d hd
    obtain ⟨ht, y, -, -, rfl⟩ := (mem_launch hnx hsize).mp hc
    obtain ⟨hu, y', -, -, rfl⟩ := (mem_launch hnx hsize).mp hd
    apply sumAt_apart
    intro heq
    apply hne
    apply column_inj
    exact (cell_inj ⟨column_nonneg t, ht⟩ ⟨column_nonneg u, hu⟩ heq).2

/-- Together the threads sum the elements that the host sums. -/
theorem mem_sums_iff (c : Assignment Cell E) :
    c ∈ sums add 0 (ny.toInt.toNat * nx.toInt.toNat) ↔ ∃ t, c ∈ launch add nx ny t := by
  have hpos := toInt_pos hnx
  rw [mem_sums]
  constructor
  · rintro ⟨j, hj, hlt, rfl⟩
    rw [Int.zero_add, lt_size_iff hpos hj] at hlt
    obtain ⟨t, ht⟩ := exists_column hnx ⟨Int.emod_nonneg j hpos.ne', Int.emod_lt_of_pos j hpos⟩
    refine ⟨t, (mem_launch hnx hsize).mpr ⟨?_, j / nx.toInt, Int.ediv_nonneg hj hpos.le, ?_, ?_⟩⟩
    · rw [ht]
      exact Int.emod_lt_of_pos j hpos
    · exact Int.ediv_lt_of_lt_mul hpos (by rwa [Int.mul_comm] at hlt)
    · rw [ht, Int.mul_comm, Int.mul_ediv_add_emod]
  · rintro ⟨t, hc⟩
    obtain ⟨hlt, y, hy, hylt, rfl⟩ := (mem_launch hnx hsize).mp hc
    obtain ⟨hle, hsmall⟩ := cell_bounds ⟨column_nonneg t, hlt⟩ ⟨hy, hylt⟩
    refine ⟨_, hle, ?_, rfl⟩
    rwa [Int.zero_add, lt_size_iff hpos hle]

end

/-- In whatever order the threads act, the launch sums what the host sums: no index
    is outside the matrices, every element of `C` is written once, and every run
    can be completed. -/
theorem launch_correct (hnx : 1 ≤ nx) (hsize : nx.toInt * ny.toInt < 2 ^ 31) (memory : Cell → E)
    {s : Config (ThreadId nx) (Assignment Cell E) (Phase E) (Cell → E)}
    (h : (code (ThreadId nx) Cell E).Reachable (launch add nx ny) memory s) :
    (∀ t, ∀ c ∈ launch add nx ny t, ∃ i, 0 ≤ i ∧ i < nx.toInt * ny.toInt ∧
      c.target = .C i ∧ c.sources = [.A i, .B i]) ∧
    (∃ k s', Run (code (ThreadId nx) Cell E).Step k s s' ∧ Done s') ∧
    (Done s →
      s.memory = sumMatrixOnHost add nx ny memory ∧
      ∀ i, 0 ≤ i → i < nx.toInt * ny.toInt →
        ∃ e, s.history.filter (fun e => e.2.1.target = .C i) = [e]) := by
  have hpos := toInt_pos hnx
  have hapart : AllApart (launch add nx ny) := launch_apart hnx hsize
  refine ⟨?_, exists_done hapart h, fun hdone => ⟨?_, ?_⟩⟩
  · intro t c hc
    obtain ⟨hlt, y, hy, hylt, rfl⟩ := (mem_launch hnx hsize).mp hc
    obtain ⟨hle, hsmall⟩ := cell_bounds ⟨column_nonneg t, hlt⟩ ⟨hy, hylt⟩
    exact ⟨_, hle, hsmall, rfl, rfl⟩
  · rw [sumMatrixOnHost_eq hpos.le]
    exact memory_eq_sequential hapart h hdone (sums_pairwise 0 _) (mem_sums_iff hnx hsize)
  · intro i hi hlt
    have hmem : sumAt add i ∈ sums add 0 (ny.toInt.toNat * nx.toInt.toNat) :=
      mem_sums.mpr ⟨i, hi, by rwa [Int.zero_add, lt_size_iff hpos hi], rfl⟩
    obtain ⟨t, ht⟩ := (mem_sums_iff hnx hsize _).mp hmem
    exact stored_once hapart h hdone ht

/-- What the host writes into `C`. -/
theorem sumMatrixOnHost_C (hnx : 0 < nx.toInt) (memory : Cell → E) {i : Int} (hi : 0 ≤ i)
    (hlt : i < nx.toInt * ny.toInt) :
    sumMatrixOnHost add nx ny memory (.C i) = add (memory (.A i)) (memory (.B i)) := by
  have hmem : sumAt add i ∈ sums add 0 (ny.toInt.toNat * nx.toInt.toNat) :=
    mem_sums.mpr ⟨i, hi, by rwa [Int.zero_add, lt_size_iff hnx hi], rfl⟩
  have hpairwise : (sums add 0 (ny.toInt.toNat * nx.toInt.toNat)).Pairwise Apart := sums_pairwise 0 _
  rw [sumMatrixOnHost_eq hnx.le, sequential_eq_stores hpairwise]
  exact stores_of_mem (hpairwise.imp Apart.target_ne) hmem

/-- The last of the two blocks has one thread with a column. -/
theorem launch_two_blocks : (grid 33).toNat = 2 ∧
    ∃ s : Config (ThreadId 33) (Assignment Cell Int) (Phase Int) (Cell → Int),
      (code (ThreadId 33) Cell Int).Reachable (launch (· + ·) 33 2) (fun _ => 1) s ∧ Done s ∧
        s.memory (.C 65) = 2 := by
  have hstart : (code (ThreadId 33) Cell Int).Reachable (launch (· + ·) 33 2) (fun _ => 1)
      ((code (ThreadId 33) Cell Int).start (launch (· + ·) 33 2) fun _ => 1) := ⟨0, .refl _⟩
  obtain ⟨-, ⟨k, s, hrun, hdone⟩, -⟩ := launch_correct (by decide) (by decide) _ hstart
  obtain ⟨-, -, hmemory⟩ := launch_correct (by decide) (by decide) _ (hstart.run hrun)
  refine ⟨by decide, s, hstart.run hrun, hdone, ?_⟩
  rw [(hmemory hdone).1]
  exact sumMatrixOnHost_C (by decide) _ (by decide) (by decide)

end accelerators.matrix_sum
