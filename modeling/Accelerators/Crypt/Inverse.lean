import Mathlib.Tactic.NormNum.Prime
import Accelerators.Crypt
import Accelerators.ModularInverse

open modular_inverse

namespace accelerators.crypt

variable {a k x y t0 t1 : Nat}

theorem prime_modulus : Nat.Prime 0x10001 := by norm_num

theorem int_of_le (h : k ≤ 0x10001) : int k = some k := if_pos (by omega)

/-- A word other than zero has an inverse, which is a word. -/
theorem lt_of_inverse (hle : k ≤ 0x10001) (hinverse : k * a ≡ 1 [MOD 0x10001]) (ha : a < 2 ^ 16) : k < 2 ^ 16 := by
  rw [Nat.ModEq] at hinverse
  by_contra hnot
  obtain rfl | rfl : k = 0x10000 ∨ k = 0x10001 := by omega
  · omega
  · rw [Nat.mul_mod_right] at hinverse
    cases hinverse

/-- When the right number is one, the masked result is its factor from the other end. -/
theorem masked_one_sub (h : Cofactors 0x10001 a x 1 t0 t1) (hx : 0 < x) (ha : a < 2 ^ 16) :
    masked (1 - t1) = 0x10001 - t1 := by
  have hle := h.right_le hx
  have hinverse := h.inverse_right hx
  have hlt := lt_of_inverse (Nat.sub_le _ _) hinverse ha
  have hpos : 0x10001 - t1 ≠ 0 := by
    intro hzero
    rw [hzero, Nat.zero_mul, Nat.ModEq] at hinverse
    cases hinverse
  rw [masked]
  omega

/-- Neither number becomes zero, the factors stay below the modulus, and the loop ends
    with the inverse. -/
theorem invLoop_spec (h : Cofactors 0x10001 a x y t0 t1) (hx : x ≠ 1) (hy : y ≠ 1) (ha : a < 2 ^ 16) :
    ∃ k, invLoop x y t0 t1 = some k ∧ k < 2 ^ 16 ∧ k * a ≡ 1 [MOD 0x10001] := by
  induction y using Nat.strong_induction_on generalizing x t0 t1 with
  | _ y ih =>
    have hypos := Nat.pos_of_ne_zero (h.right_ne_zero hx)
    have hleft := h.divide_left
    have hzero := hleft.left_ne_zero hy
    rw [invLoop, if_neg hypos.ne', int_of_le (hleft.left_le hypos), Option.bind_eq_bind, Option.bind_some]
    by_cases hone : x % y = 1
    · have hinverse := (hone ▸ hleft).inverse_left
      rw [if_pos hone]
      exact ⟨_, rfl, lt_of_inverse (hleft.left_le hypos) hinverse ha, hinverse⟩
    · have hxpos := Nat.pos_of_ne_zero hzero
      have hright := hleft.divide_right
      rw [if_neg hone, if_neg hzero, int_of_le (hright.right_le hxpos), Option.bind_some]
      by_cases hone' : y % (x % y) = 1
      · have hend := hone' ▸ hright
        have hinverse := hend.inverse_right hxpos
        rw [if_pos hone', masked_one_sub hend hxpos ha]
        exact ⟨_, rfl, lt_of_inverse (Nat.sub_le _ _) hinverse ha, hinverse⟩
      · have hlt := Nat.mod_lt x hypos
        have hlt' := Nat.mod_lt y hxpos
        rw [if_neg hone']
        exact ih _ (by omega) hright hone hone'

/-- `inv` returns a word for every word, the inverse of each but zero. -/
theorem inv_spec (ha : a < 2 ^ 16) :
    ∃ k, inv a = some k ∧ k < 2 ^ 16 ∧ (a = 0 ∧ k = 0 ∨ k * a ≡ 1 [MOD 0x10001]) := by
  by_cases hsmall : a ≤ 1
  · rw [inv, if_pos hsmall]
    refine ⟨a, rfl, ha, ?_⟩
    obtain rfl | rfl : a = 0 ∨ a = 1 := by omega
    · exact .inl ⟨rfl, rfl⟩
    · exact .inr rfl
  · have hcoprime : Nat.Coprime a 0x10001 := by
      rw [Nat.coprime_comm]
      exact Nat.coprime_of_lt_prime (by omega) (by omega) prime_modulus
    have h := Cofactors.start hcoprime
    rw [inv, if_neg hsmall]
    by_cases hone : 0x10001 % a = 1
    · have hend := hone ▸ h
      have hinverse := hend.inverse_right (by omega)
      refine ⟨_, if_pos hone, ?_⟩
      rw [masked_one_sub hend (by omega) ha]
      exact ⟨lt_of_inverse (Nat.sub_le _ _) hinverse ha, .inr hinverse⟩
    · obtain ⟨k, hk, hlt, hinverse⟩ := invLoop_spec h (by omega) hone ha
      exact ⟨k, (if_neg hone).trans hk, hlt, .inr hinverse⟩

end accelerators.crypt
