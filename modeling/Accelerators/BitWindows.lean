import Mathlib.Data.Nat.Bitwise
import Mathlib.Data.Nat.Digits.Defs

namespace bit_windows

variable {n w p s b : Nat} {x : BitVec n}

/-- The `w` bits from the position `p` on, which continue at the begin. -/
def window (x : BitVec n) (w p : Nat) : Nat := ((x.rotateRight p).setWidth w).toNat

theorem window_lt : window x w p < 2 ^ w := BitVec.isLt _

theorem testBit_window_of_le (hb : w ≤ b) : (window x w p).testBit b = false :=
  Nat.testBit_lt_two_pow (Nat.lt_of_lt_of_le window_lt (Nat.pow_le_pow_right Nat.two_pos hb))

theorem getLsbD_rotateRight (hb : b < n) : (x.rotateRight p).getLsbD b = x.getLsbD ((p + b) % n) := by
  have hmod := Nat.mod_lt p (show n > 0 by omega)
  rw [BitVec.getLsbD_rotateRight, ← Nat.mod_add_mod p n b]
  generalize p % n = q at hmod ⊢
  by_cases hlt : q + b < n
  · have htrue : decide (b < n - q) = true := decide_eq_true (by omega)
    rw [Nat.mod_eq_of_lt hlt, htrue, cond_true]
  · have hfalse : decide (b < n - q) = false := decide_eq_false (by omega)
    have hsub : b - (n - q) = q + b - n := by omega
    rw [Nat.mod_eq_sub_mod (by omega), Nat.mod_eq_of_lt (by omega : q + b - n < n), hfalse, cond_false,
      decide_eq_true hb, Bool.true_and, hsub]

theorem testBit_window (hb : b < w) (hw : w ≤ n) : (window x w p).testBit b = x.getLsbD ((p + b) % n) := by
  rw [window, BitVec.testBit_toNat, BitVec.getLsbD_setWidth, getLsbD_rotateRight (by omega), decide_eq_true hb,
    Bool.true_and]

theorem window_congr (h : p % n = s % n) : window x w p = window x w s := by
  rw [window, ← BitVec.rotateRight_mod_eq_rotateRight, h, BitVec.rotateRight_mod_eq_rotateRight, window]

/-- Two windows that follow each other, shifted by `s` bits. -/
theorem funnel (hs : s ≤ w) (hw : w ≤ n) :
    (window x w p >>> s ||| window x w (p + w) <<< (w - s)) &&& (2 ^ w - 1) = window x w (p + s) := by
  apply Nat.eq_of_testBit_eq
  intro b
  rw [Nat.testBit_and, Nat.testBit_or, Nat.testBit_shiftRight, Nat.testBit_shiftLeft, Nat.testBit_two_pow_sub_one]
  by_cases hb : b < w
  · rw [testBit_window hb hw]
    by_cases hlow : s + b < w
    · rw [testBit_window hlow hw, decide_eq_false (by omega), decide_eq_true hb, Nat.add_assoc]
      simp
    · rw [testBit_window_of_le (by omega), testBit_window (by omega) hw, decide_eq_true hb, decide_eq_true (by omega),
        show p + w + (b - (w - s)) = p + s + b by omega]
      simp
  · rw [testBit_window_of_le (p := p + s) (by omega), decide_eq_false hb, Bool.and_false]

/-- The bits of a number that is put together from words of `w` bits. -/
theorem testBit_ofDigits (hw : 0 < w) {words : List Nat} (hwords : ∀ v ∈ words, v < 2 ^ w) (p : Nat) :
    (Nat.ofDigits (2 ^ w) words).testBit p = (words.getD (p / w) 0).testBit (p % w) := by
  induction words generalizing p with
  | nil => simp
  | cons v words ih =>
    rw [List.forall_mem_cons] at hwords
    rw [Nat.ofDigits_cons, Nat.add_comm, Nat.testBit_two_pow_mul_add _ hwords.1]
    by_cases hp : p < w
    · rw [if_pos hp, Nat.div_eq_of_lt hp, Nat.mod_eq_of_lt hp, List.getD_cons_zero]
    · have hdiv : p / w = (p - w) / w + 1 := Nat.div_eq_sub_div hw (by omega)
      rw [if_neg hp, ih hwords.2, hdiv, List.getD_cons_succ, ← Nat.mod_eq_sub_mod (by omega)]

end bit_windows
