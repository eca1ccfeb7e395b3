import Mathlib.Algebra.Order.Group.Unbundled.Int
import Mathlib.Data.Finset.Union

namespace accelerators.n_queens

/-- `start to 0 by -1`. -/
def downToZero (start : Int) : List Int := (List.range (start + 1).toNat).map fun (i : Nat) => start - i

/-- `0 until n`. -/
def untilN (n : Nat) : List Int := (List.range n).map Int.ofNat

/-- The columns and rows are smaller than `n`, so `Int` arithmetic is exact. -/
def isSafe (col : Int) (queens : List Int) : Bool :=
  let row : Int := queens.length
  let tmp := (downToZero (row - 1)).zip queens
  tmp.all fun (r, c) => col ≠ c && |col - c| ≠ row - r

def placeQueens (n : Nat) : Nat → Finset (List Int)
  | 0 => {[]}
  | k + 1 => (placeQueens n k).biUnion fun queens =>
      (((untilN n).filter fun col => isSafe col queens).map fun col => col :: queens).toFinset

def queens (n : Nat) : Finset (List Int) := placeQueens n n

/-- No two queens attack each other: the entry at a position is the column of a
    queen, and two positions are as many rows apart as their difference. -/
def NoneAttack (l : List Int) : Prop :=
  ∀ (i j : Nat) (hi : i < l.length) (hj : j < l.length), i < j → l[i] ≠ l[j] ∧ |l[i] - l[j]| ≠ (j : Int) - i

theorem noneAttack_nil : NoneAttack [] := by
  intro i j hi
  cases hi

theorem noneAttack_cons {col : Int} {queens : List Int} :
    NoneAttack (col :: queens) ↔
      (∀ (i : Nat) (hi : i < queens.length), col ≠ queens[i] ∧ |col - queens[i]| ≠ (i : Int) + 1) ∧
        NoneAttack queens := by
  constructor
  · intro h
    refine ⟨fun i hi => ?_, fun i j hi hj hij => ?_⟩
    · simpa using h 0 (i + 1) (Nat.succ_pos _) (Nat.succ_lt_succ hi) (Nat.succ_pos i)
    · simpa using h (i + 1) (j + 1) (Nat.succ_lt_succ hi) (Nat.succ_lt_succ hj) (Nat.succ_lt_succ hij)
  · rintro ⟨hcol, hqueens⟩ i j hi hj hij
    cases j with
    | zero => cases hij
    | succ j =>
      cases i with
      | zero => simpa using hcol j (Nat.lt_of_succ_lt_succ hj)
      | succ i =>
        simpa using hqueens i j (Nat.lt_of_succ_lt_succ hi) (Nat.lt_of_succ_lt_succ hj) (Nat.lt_of_succ_lt_succ hij)

/-- Zipping with the rows downwards pairs every queen with its row: the one at
    position `i` stands `i + 1` rows before the next one. -/
theorem isSafe_iff {col : Int} {queens : List Int} : isSafe col queens = true ↔
    ∀ (i : Nat) (hi : i < queens.length), col ≠ queens[i] ∧ |col - queens[i]| ≠ (i : Int) + 1 := by
  have hlength : (downToZero ((queens.length : Int) - 1)).length = queens.length := by
    simp [downToZero]
  have hrow : ∀ i : Nat, (queens.length : Int) - ((queens.length : Int) - 1 - i) = i + 1 := by
    intro i
    omega
  simp only [isSafe, List.all_eq_true, List.forall_mem_iff_getElem]
  constructor
  · intro h i hi
    have hi' : i < ((downToZero ((queens.length : Int) - 1)).zip queens).length := by
      rwa [List.length_zip, hlength, min_self]
    simpa [downToZero, hrow] using h i hi'
  · intro h i hi
    have hi' : i < queens.length := by
      rwa [List.length_zip, hlength, min_self] at hi
    simpa [downToZero, hrow] using h i hi'

theorem mem_placeQueens_succ {n k : Nat} {l : List Int} : l ∈ placeQueens n (k + 1) ↔
    ∃ col queens, l = col :: queens ∧ queens ∈ placeQueens n k ∧
      (0 ≤ col ∧ col < n) ∧ isSafe col queens := by
  have huntil : ∀ col : Int, col ∈ untilN n ↔ 0 ≤ col ∧ col < n := by
    intro col
    simp only [untilN, List.mem_map, List.mem_range]
    constructor
    · rintro ⟨i, hi, rfl⟩
      exact ⟨Int.natCast_nonneg i, Int.ofNat_lt.mpr hi⟩
    · rintro ⟨hnonneg, hlt⟩
      exact ⟨col.toNat, by omega, Int.toNat_of_nonneg hnonneg⟩
  simp only [placeQueens, Finset.mem_biUnion, List.mem_toFinset, List.mem_map, List.mem_filter, huntil]
  constructor
  · rintro ⟨queens, hqueens, col, ⟨hcol, hsafe⟩, rfl⟩
    exact ⟨col, queens, rfl, hqueens, hcol, hsafe⟩
  · rintro ⟨col, queens, rfl, hqueens, hcol, hsafe⟩
    exact ⟨queens, hqueens, col, ⟨hcol, hsafe⟩, rfl⟩

/-- The lists that are placed in `k` rows are all the safe placements of `k` queens. -/
theorem mem_placeQueens {n k : Nat} {l : List Int} : l ∈ placeQueens n k ↔
    l.length = k ∧ (∀ col ∈ l, 0 ≤ col ∧ col < (n : Int)) ∧ NoneAttack l := by
  induction k generalizing l with
  | zero =>
    rw [placeQueens, Finset.mem_singleton, List.length_eq_zero_iff]
    constructor
    · rintro rfl
      exact ⟨rfl, List.forall_mem_nil _, noneAttack_nil⟩
    · exact fun h => h.1
  | succ k ih =>
    rw [mem_placeQueens_succ]
    constructor
    · rintro ⟨col, queens, rfl, hqueens, hcol, hsafe⟩
      obtain ⟨hlength, hcols, hnone⟩ := ih.mp hqueens
      exact ⟨by simp [hlength], List.forall_mem_cons.mpr ⟨hcol, hcols⟩,
        noneAttack_cons.mpr ⟨isSafe_iff.mp hsafe, hnone⟩⟩
    · rintro ⟨hlength, hcols, hnone⟩
      cases l with
      | nil => cases hlength
      | cons col queens =>
        obtain ⟨hcol, hcols⟩ := List.forall_mem_cons.mp hcols
        obtain ⟨hsafe, hnone⟩ := noneAttack_cons.mp hnone
        exact ⟨col, queens, rfl, ih.mpr ⟨Nat.succ.inj hlength, hcols, hnone⟩, hcol, isSafe_iff.mpr hsafe⟩

/-- `queens n` is exactly the set of the safe placements of `n` queens on a
    board of `n` rows and columns. -/
theorem mem_queens (n : Nat) (l : List Int) : l ∈ queens n ↔
    l.length = n ∧ (∀ col ∈ l, 0 ≤ col ∧ col < (n : Int)) ∧ NoneAttack l :=
  mem_placeQueens

example : queens 4 = {[1, 3, 0, 2], [2, 0, 3, 1]} := by decide +kernel

end accelerators.n_queens
