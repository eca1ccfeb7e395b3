import Mathlib.Data.List.Iterate
import Mathlib.Tactic.Linarith
import Accelerators.LinearCongruential
import Accelerators.IntelCompetition.Lines

open linear_congruential rounding

namespace accelerators.intel_competition

/-- A test of the input file. -/
structure Test extends Parameters where
  limits : ∀ x ∈ [M, N, seed0, a, b, m], 1 ≤ x.toInt ∧ x.toInt ≤ 20000

/-- The limits of the generator. -/
structure Limits (a b m : Int) : Prop where
  a : 1 ≤ a ∧ a ≤ 20000
  b : 1 ≤ b ∧ b ≤ 20000
  m : 1 ≤ m ∧ m ≤ 20000

theorem int_of_lt {n : Int} (hnonneg : 0 ≤ n) (hlt : n < 2 ^ 31) : int n = .ok n := if_pos ⟨by omega, hlt⟩

theorem int_of_le {n : Int} (hle : 2 ^ 31 ≤ n) : int n = .error .overflow := if_neg fun h => by omega

/-- The `n` numbers after the seed. -/
def numbers (a b m : Int) (n : Nat) (seed : Int) : List Int := List.iterate (next a b m) (next a b m seed) n

/-- The numbers in rows of `N`. -/
def matrix (N : Nat) (a b m : Int) : (k : Nat) → (seed : Int) → List (List Int)
  | 0, _ => []
  | k + 1, seed => numbers a b m N seed :: matrix N a b m k ((next a b m)^[N] seed)

theorem mem_numbers {a b m seed x : Int} {n : Nat} (hm : 0 < m) (hx : x ∈ numbers a b m n seed) :
    0 ≤ x ∧ x < m := by
  obtain ⟨k, -, rfl⟩ := List.mem_iterate.mp hx
  exact iterate_next_bounds hm

theorem mem_matrix {N : Nat} {a b m seed : Int} {k : Nat} (hm : 0 < m) :
    ∀ row ∈ matrix N a b m k seed, ∀ x ∈ row, 0 ≤ x ∧ x < m := by
  induction k generalizing seed with
  | zero => exact fun row hrow => (List.not_mem_nil hrow).elim
  | succ k ih => exact List.forall_mem_cons.mpr ⟨fun x hx => mem_numbers hm hx, ih⟩

section
variable {a b m seed : Int} (h : Limits a b m)
include h

/-- A seed within the limits is small enough for the next product. -/
theorem PRNG_eq (hseed : 0 ≤ seed ∧ seed ≤ 20000) : PRNG seed a b m = .ok (next a b m seed) := by
  obtain ⟨⟨ha, ha'⟩, ⟨hb, hb'⟩, hm, hm'⟩ := h
  have hproduct : 0 ≤ a * seed := mul_nonneg (by omega) hseed.1
  have hproduct' : a * seed ≤ 20000 * 20000 := mul_le_mul ha' hseed.2 hseed.1 (by norm_num)
  have hsum : 0 ≤ a * seed + b := by omega
  have hquotient : 0 ≤ (a * seed + b).tdiv m := Int.tdiv_nonneg hsum (by omega)
  have hquotient' : (a * seed + b).tdiv m ≤ a * seed + b := Int.tdiv_le_self m hsum
  rw [PRNG, int_of_lt hproduct (by omega)]
  simp only [bind, Except.bind]
  rw [int_of_lt hsum (by omega)]
  simp only [if_neg (show m ≠ 0 by omega)]
  rw [int_of_lt hquotient (by omega)]
  exact congrArg Except.ok (Int.tmod_eq_emod_of_nonneg hsum)

theorem next_limits : 0 ≤ next a b m seed ∧ next a b m seed ≤ 20000 := by
  obtain ⟨-, -, hm, hm'⟩ := h
  obtain ⟨hlower, hupper⟩ := next_bounds (a := a) (b := b) (s := seed) (show 0 < m by omega)
  omega

/-- The computation fails as soon as the sum of all numbers is too large, since no
    later number makes it smaller. -/
theorem fillRow_eq (n : Nat) {f : Filling} (hseed : 0 ≤ f.seed ∧ f.seed ≤ 20000)
    (hsum : 0 ≤ f.sum ∧ f.sum < 2 ^ 31) :
    fillRow a b m n f = (int (f.sum + total a b m n f.seed)).bind fun sum =>
      .ok (numbers a b m n f.seed, { seed := (next a b m)^[n] f.seed, sum }) := by
  induction n generalizing f with
  | zero =>
    rw [total_zero, add_zero, int_of_lt hsum.1 hsum.2]
    rfl
  | succ n ih =>
    have hnext : 0 ≤ next a b m f.seed ∧ next a b m f.seed ≤ 20000 := next_limits h
    have htotal := total_nonneg (a := a) (b := b) (n := n) (s := next a b m f.seed) (show 0 < m from h.m.1)
    rw [fillRow, PRNG_eq h hseed, total_succ, ← add_assoc]
    simp only [bind, Except.bind]
    by_cases hlt : f.sum + next a b m f.seed < 2 ^ 31
    · have hsum' : 0 ≤ f.sum + next a b m f.seed := by omega
      rw [int_of_lt hsum' hlt]
      simp only
      rw [ih (f := { seed := next a b m f.seed, sum := f.sum + next a b m f.seed }) hnext ⟨hsum', hlt⟩]
      simp only [Except.bind]
      cases int (f.sum + next a b m f.seed + total a b m n (next a b m f.seed)) <;> rfl
    · rw [int_of_le (by omega), int_of_le (by omega)]

theorem iterate_next_limits (n : Nat) (hseed : 0 ≤ seed ∧ seed ≤ 20000) :
    0 ≤ (next a b m)^[n] seed ∧ (next a b m)^[n] seed ≤ 20000 := by
  induction n generalizing seed with
  | zero => exact hseed
  | succ n ih => exact ih (next_limits h)

theorem fillRows_eq {N : Int} (k : Nat) {f : Filling} (hseed : 0 ≤ f.seed ∧ f.seed ≤ 20000)
    (hsum : 0 ≤ f.sum ∧ f.sum < 2 ^ 31) :
    fillRows N a b m k f = (int (f.sum + total a b m (k * N.toNat) f.seed)).bind fun sum =>
      .ok (matrix N.toNat a b m k f.seed, { seed := (next a b m)^[k * N.toNat] f.seed, sum }) := by
  induction k generalizing f with
  | zero =>
    rw [Nat.zero_mul, total_zero, add_zero, int_of_lt hsum.1 hsum.2]
    rfl
  | succ k ih =>
    have hm : 0 < m := h.m.1
    have hrow := total_nonneg (a := a) (b := b) (n := N.toNat) (s := f.seed) hm
    have hrest := total_nonneg (a := a) (b := b) (n := k * N.toNat) (s := (next a b m)^[N.toNat] f.seed) hm
    rw [Nat.succ_mul, Function.iterate_add_apply, Nat.add_comm (k * N.toNat), total_add, ← add_assoc, fillRows,
      fillRow_eq h _ hseed hsum]
    simp only [bind, Except.bind]
    by_cases hlt : f.sum + total a b m N.toNat f.seed < 2 ^ 31
    · have hsum' : 0 ≤ f.sum + total a b m N.toNat f.seed := by omega
      rw [int_of_lt hsum' hlt]
      simp only
      rw [ih (f := { seed := (next a b m)^[N.toNat] f.seed, sum := f.sum + total a b m N.toNat f.seed })
        (iterate_next_limits h _ hseed) ⟨hsum', hlt⟩]
      simp only [Except.bind]
      cases int (f.sum + total a b m N.toNat f.seed + total a b m (k * N.toNat) ((next a b m)^[N.toNat] f.seed)) <;> rfl
    · rw [int_of_le (by omega), int_of_le (by omega)]

end

/-- Four roundings keep the order of magnitude of a quotient. -/
theorem quotient_bounds {x y c : Rat} (hx : 0 ≤ x) (hy : 0 < y) (hle : x ≤ c * y) :
    0 ≤ roundTo 53 (roundTo 24 (roundTo 24 x / roundTo 24 y) + 1 / 2) ∧
      roundTo 53 (roundTo 24 (roundTo 24 x / roundTo 24 y) + 1 / 2) ≤ 16 * c + 1 := by
  obtain ⟨hnum, hnum'⟩ := roundTo_bounds (p := 24) (by decide) hx
  obtain ⟨hden, -⟩ := roundTo_bounds (p := 24) (by decide) hy.le
  have hquotient : 0 ≤ roundTo 24 x / roundTo 24 y := by
    apply div_nonneg <;> linarith
  have hquotient' : roundTo 24 x / roundTo 24 y ≤ 4 * c := by
    rw [div_le_iff₀ (by linarith)]
    have hc : 0 ≤ c := nonneg_of_mul_nonneg_left (hx.trans hle) hy
    calc roundTo 24 x ≤ 4 * c * (y / 2) := by linarith
      _ ≤ 4 * c * roundTo 24 y := by gcongr
  obtain ⟨hfloat, hfloat'⟩ := roundTo_bounds (p := 24) (by decide) hquotient
  obtain ⟨hdouble, hdouble'⟩ := roundTo_bounds (p := 53) (x := roundTo 24 (roundTo 24 x / roundTo 24 y) + 1 / 2)
    (by decide) (by linarith)
  constructor <;> linarith

theorem mean_bounds {sum M N : Int} (hM : 1 ≤ M ∧ M ≤ 20000) (hN : 1 ≤ N ∧ N ≤ 20000) (hsum : 0 ≤ sum)
    (hle : sum ≤ 20000 * (M * N)) :
    ∃ average, mean sum M N = .ok average ∧ 0 ≤ average ∧ average ≤ 320001 := by
  have hproduct : 1 ≤ M * N := one_le_mul_of_one_le_of_one_le hM.1 hN.1
  have hproduct' : M * N ≤ 20000 * 20000 := mul_le_mul hM.2 hN.2 (by omega) (by norm_num)
  obtain ⟨hnonneg, hupper⟩ := quotient_bounds (x := sum) (y := (M * N : Int)) (c := 20000) (by exact_mod_cast hsum)
    (by exact_mod_cast hproduct) (by exact_mod_cast hle)
  obtain ⟨hmean, hmean'⟩ := truncate_bounds (n := 320001) hnonneg (by norm_num at hupper ⊢; exact hupper)
  refine ⟨_, ?_, hmean, hmean'⟩
  rw [mean, int_of_lt (by omega) (by omega)]
  simp only [bind, Except.bind]
  rw [if_neg (by omega)]
  exact int_of_lt hmean (by omega)

theorem mapM_eq_ok {α β : Type} {f : α → Except Fault β} {g : α → β} {xs : List α}
    (h : ∀ x ∈ xs, f x = .ok (g x)) :
    xs.mapM f = .ok (xs.map g) := by
  induction xs with
  | nil => rfl
  | cons x xs ih =>
    obtain ⟨hx, hxs⟩ := List.forall_mem_cons.mp h
    rw [List.mapM_cons, hx, ih hxs]
    rfl

namespace Test

variable (t : Test)

theorem generator_limits : Limits t.a.toInt t.b.toInt t.m.toInt :=
  ⟨t.limits _ (by simp), t.limits _ (by simp), t.limits _ (by simp)⟩

/-- The sum of all numbers of the matrix, from the parameters alone. -/
def total : Int :=
  ∑ k ∈ Finset.range (t.M.toInt.toNat * t.N.toInt.toNat), nth t.a.toInt t.b.toInt t.m.toInt t.seed0.toInt (k + 1)

/-- The matrix as the first loop leaves it. -/
def generated : List (List Int) :=
  matrix t.N.toInt.toNat t.a.toInt t.b.toInt t.m.toInt t.M.toInt.toNat t.seed0.toInt

theorem fillRows_eq :
    fillRows t.N.toInt t.a.toInt t.b.toInt t.m.toInt t.M.toInt.toNat { seed := t.seed0.toInt, sum := 0 } =
      (int t.total).bind fun sum => .ok (t.generated,
        { seed := (next t.a.toInt t.b.toInt t.m.toInt)^[t.M.toInt.toNat * t.N.toInt.toNat] t.seed0.toInt, sum }) := by
  obtain ⟨hseed, hseed'⟩ := t.limits t.seed0 (by simp)
  rw [intel_competition.fillRows_eq t.generator_limits _ ⟨by simp only; omega, hseed'⟩ ⟨by simp, by simp⟩,
    total_eq_sum_nth, zero_add, total, generated]

theorem fill_error (hle : 2 ^ 31 ≤ t.total) : fill t.toParameters = .error .overflow := by
  rw [fill, fillRows_eq, int_of_le hle]
  rfl

theorem total_bounds : 0 ≤ t.total ∧ t.total ≤ 20000 * (t.M.toInt * t.N.toInt) := by
  obtain ⟨hm, hm'⟩ := t.generator_limits.m
  obtain ⟨hM, -⟩ := t.limits t.M (by simp)
  obtain ⟨hN, -⟩ := t.limits t.N (by simp)
  rw [total, ← total_eq_sum_nth]
  refine ⟨total_nonneg (by omega), (total_le (by omega)).trans ?_⟩
  push_cast
  rw [Int.toNat_of_nonneg (by omega), Int.toNat_of_nonneg (by omega), mul_comm]
  exact mul_le_mul_of_nonneg_right (by omega) (mul_nonneg (by omega) (by omega))

/-- The second loop takes the average off, and no difference is too large. -/
theorem fill_ok (hlt : t.total < 2 ^ 31) : ∃ average, mean t.total t.M.toInt t.N.toInt = .ok average ∧
    fill t.toParameters = .ok (t.generated.map fun row => row.map fun x => x - average) := by
  obtain ⟨hnonneg, hle⟩ := t.total_bounds
  obtain ⟨hm, hm'⟩ := t.generator_limits.m
  obtain ⟨average, hmean, hlower, hupper⟩ :=
    mean_bounds (t.limits t.M (by simp)) (t.limits t.N (by simp)) hnonneg hle
  refine ⟨average, hmean, ?_⟩
  rw [fill, fillRows_eq, int_of_lt hnonneg hlt]
  simp only [bind, Except.bind]
  rw [hmean]
  apply mapM_eq_ok
  intro row hrow
  apply mapM_eq_ok
  intro x hx
  obtain ⟨hx0, hxm⟩ := mem_matrix (show 0 < t.m.toInt by omega) row hrow x hx
  exact if_pos ⟨by omega, by omega⟩

/-- The first matrix of the ReadMe. -/
example : fill ⟨4, 3, 10, 3, 4, 17⟩ = .ok [[-8, -4, 8], [-7, -1, 0], [3, -5, 5], [1, 6, 4]] := by decide +kernel

/-- A generator that repeats its seed. -/
theorem total_of_fixed (hfixed : next t.a.toInt t.b.toInt t.m.toInt t.seed0.toInt = t.seed0.toInt) :
    t.total = (t.M.toInt.toNat * t.N.toInt.toNat : Nat) * t.seed0.toInt := by
  rw [total, ← total_eq_sum_nth, linear_congruential.total]
  simp only [Function.iterate_fixed hfixed, Finset.sum_const, Finset.card_range, nsmul_eq_mul]

end Test

theorem generate_line (temp : Vector UInt8 16) (p : Parameters) : generate temp (line p) = fill p := by
  rw [generate, parse_of_line]
  rfl

/-- Within the limits, the sum of the generated numbers is all that can be too large
    for an `int`. -/
theorem generate_ok_iff (temp : Vector UInt8 16) (t : Test) :
    (∃ A, generate temp (line t.toParameters) = .ok A) ↔ t.total < 2 ^ 31 := by
  rw [generate_line]
  constructor
  · rintro ⟨A, hfill⟩
    by_contra hnot
    rw [t.fill_error (Int.le_of_not_gt hnot)] at hfill
    cases hfill
  · intro hlt
    obtain ⟨average, -, hfill⟩ := t.fill_ok hlt
    exact ⟨_, hfill⟩

/-- The largest matrix, with every number the largest. -/
def largest : Test where
  M := 20000
  N := 20000
  seed0 := 19999
  a := 1
  b := 20000
  m := 20000
  limits := by
    simp only [List.forall_mem_cons]
    refine ⟨?_, ?_, ?_, ?_, ?_, ?_, fun x hx => (List.not_mem_nil hx).elim⟩ <;> decide

theorem generate_overflow : ¬ ∀ (temp : Vector UInt8 16) (t : Test),
    ∃ A, generate temp (line t.toParameters) = .ok A := by
  intro h
  obtain ⟨A, hA⟩ := h (Vector.replicate 16 0) largest
  have hle : 2 ^ 31 ≤ largest.total := by
    rw [largest.total_of_fixed (by decide +kernel)]
    decide +kernel
  rw [generate_line, largest.fill_error hle] at hA
  cases hA

end accelerators.intel_competition
