import Mathlib
import Accelerators.Rational.Canonical

open truncated_euclid

namespace accelerators.rational.Rational

theorem slash_notMem (n : Int) : '/' ∉ (ToString.toString n).toList := by
  have hdigits : ∀ k : Nat, '/' ∉ k.repr.toList := by
    intro k hslash
    rw [Nat.toList_repr] at hslash
    exact absurd (Nat.isDigit_of_mem_toDigits (by decide) (by decide) hslash) (by decide)
  change '/' ∉ n.repr.toList
  rw [Int.repr_eq_if]
  split_ifs with hsign
  · exact hdigits _
  · rw [String.toList_append, List.mem_append, not_or]
    exact ⟨by decide, hdigits _⟩

/-- The first slash splits a list in one way only. -/
theorem split_at_first {l₁ l₂ l₁' l₂' : List Char} (h₁ : '/' ∉ l₁) (h₁' : '/' ∉ l₁')
    (heq : l₁ ++ '/' :: l₂ = l₁' ++ '/' :: l₂') : l₁ = l₁' ∧ l₂ = l₂' := by
  induction l₁ generalizing l₁' with
  | nil =>
    cases l₁' with
    | nil => simpa using heq
    | cons head rest => exact absurd (List.mem_cons.mpr (.inl (List.cons.inj heq).1)) h₁'
  | cons head rest ih =>
    cases l₁' with
    | nil => exact absurd (List.mem_cons.mpr (.inl (List.cons.inj heq).1.symm)) h₁
    | cons head' rest' =>
      rw [List.cons_append, List.cons_append, List.cons.injEq] at heq
      rw [List.mem_cons, not_or] at h₁ h₁'
      obtain ⟨hrest, htail⟩ := ih h₁.2 h₁'.2 heq.2
      exact ⟨by rw [heq.1, hrest], htail⟩

theorem toString_eq_iff (r s : Rational Int) :
    r.toString = s.toString ↔ r.numer = s.numer ∧ r.denom = s.denom := by
  constructor
  · intro heq
    have hlist := congrArg String.toList heq
    simp only [toString, String.toList_append, List.append_assoc] at hlist
    obtain ⟨hn, hd⟩ := split_at_first (slash_notMem r.numer) (slash_notMem s.numer) hlist
    exact ⟨Int.repr_injective (String.toList_inj.mp hn), Int.repr_injective (String.toList_inj.mp hd)⟩
  · rintro ⟨hn, hd⟩
    rw [toString, toString, hn, hd]

/-- Over the integers the constructor reduces every fraction to a canonical form
    whatever the signs, and sums, negations and differences are exact. -/
theorem canonical_and_exact (r s : Rational Int) :
    new r.x r.y = .ok r ∧ r.g ≠ 0 ∧ r.numer * r.y = r.x * r.denom ∧
    (∀ k, k ∣ r.numer → k ∣ r.denom → k = 1 ∨ k = -1) ∧
    (r.numer = s.numer ∧ r.denom = s.denom ↔ r.x * s.y = s.x * r.y) ∧
    (r.toString = s.toString ↔ r.x * s.y = s.x * r.y) ∧
    r.value = r.x / r.y ∧
    (∃ t, r.add s = .ok t ∧ t.value = r.value + s.value) ∧
    (∃ t, r.neg = .ok t ∧ t.value = -r.value) ∧
    ∃ t, r.sub s = .ok t ∧ t.value = r.value - s.value := by
  refine ⟨new_eq r.denom_ne_zero, r.g_ne_zero, r.numer_mul_y, fun k => r.common_factor, numer_denom_eq_iff r s, ?_,
    r.value_eq_div, add_value r s, r.neg_value, sub_value r s⟩
  rw [toString_eq_iff, numer_denom_eq_iff]

end accelerators.rational.Rational
