import Mathlib.RingTheory.PrincipalIdealDomain
import Mathlib.Algebra.EuclideanDomain.Int
import Mathlib.Algebra.GCDMonoid.Nat

namespace modular_sums

variable {ι : Type} {s : Finset ι} {c : ι → Int} {m : Int} {A : Set Int}

/-- A set of residues modulo `m` is closed under a step. -/
structure ClosedUnder (m : Int) (A : Set Int) (step : Int) : Prop where
  periodic : ∀ z ∈ A, ∀ k : Int, z + k * m ∈ A
  add : ∀ z ∈ A, z + step ∈ A

theorem ClosedUnder.add_nsmul {step z : Int} (h : ClosedUnder m A step) (hz : z ∈ A) (k : Nat) :
    z + k * step ∈ A := by
  induction k with
  | zero => simpa using hz
  | succ k ih =>
    have hstep := h.add _ ih
    rwa [add_assoc, ← add_one_mul, ← Nat.cast_succ] at hstep

/-- Steps back are steps forward around the circle. -/
theorem ClosedUnder.add_zsmul {step z : Int} (h : ClosedUnder m A step) (hm : 0 < m) (hz : z ∈ A) (k : Int) :
    z + k * step ∈ A := by
  have hforward := h.periodic _ (h.add_nsmul hz (k % m).toNat) (k / m * step)
  have heq : z + ((k % m).toNat : Int) * step + k / m * step * m = z + k * step := by
    rw [Int.toNat_of_nonneg (Int.emod_nonneg k hm.ne')]
    calc z + k % m * step + k / m * step * m = z + (k % m + m * (k / m)) * step := by ring
      _ = z + k * step := by rw [Int.emod_add_mul_ediv]
  rwa [heq] at hforward

theorem add_sum_mem (hm : 0 < m) (hclosed : ∀ i ∈ s, ClosedUnder m A (c i)) {z : Int} (hz : z ∈ A)
    (f : ι → Int) : z + ∑ i ∈ s, f i * c i ∈ A := by
  classical
  induction s using Finset.induction_on with
  | empty => simpa using hz
  | insert i s hi ih =>
    have hsum := ih fun j hj => hclosed j (Finset.mem_insert_of_mem hj)
    have hstep := (hclosed i (Finset.mem_insert_self i s)).add_zsmul hm hsum (f i)
    rw [Finset.sum_insert hi, add_comm (f i * c i), ← add_assoc]
    exact hstep

/-- A set of residues that is closed under some steps contains, with one
    element, everything that a multiple of their greatest common divisor leads to. -/
theorem add_mem_of_gcd_dvd (hm : 0 < m) (hclosed : ∀ i ∈ s, ClosedUnder m A (c i)) {z t : Int}
    (hz : z ∈ A) (ht : s.gcd c ∣ t) : z + t ∈ A := by
  obtain ⟨q, rfl⟩ := ht
  obtain ⟨f, hf⟩ := Finset.gcd_eq_sum_mul s c
  have hsum := add_sum_mem hm hclosed hz fun i => f i * q
  have heq : ∑ i ∈ s, f i * q * c i = s.gcd c * q := by
    rw [hf, Finset.sum_mul]
    refine Finset.sum_congr rfl fun i _ => ?_
    ring
  rwa [heq] at hsum

end modular_sums
