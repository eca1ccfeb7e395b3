import Mathlib.Data.List.Basic

namespace reversal

variable {α : Type} {n k : Nat} {old r : Vector α n}

/-- The first `k` entries and the last `k` ones are exchanged, in reverse; those
    between them are as before. -/
def OuterReversed (old : Vector α n) (k : Nat) (r : Vector α n) : Prop :=
  ∀ (i : Nat) (hi : i < n), r[i] = if i < k ∨ n ≤ i + k then old[n - 1 - i] else old[i]

theorem OuterReversed.zero : OuterReversed r 0 r := by
  intro i hi
  exact (if_neg (by omega)).symm

/-- The next two entries from both ends are exchanged. -/
theorem OuterReversed.swap (h : OuterReversed old k r) (hk : k < n - 1 - k) :
    OuterReversed old (k + 1) (r.swap k (n - 1 - k)) := by
  intro i hi
  have hmiddle : ∀ (j : Nat) (hj : j < n), k ≤ j → j + k < n → r[j] = old[j] := by
    intro j hj hle hlt
    rw [h j hj, if_neg (by omega)]
  rw [Vector.getElem_swap]
  by_cases hleft : i = k
  · subst hleft
    rw [if_pos rfl, if_pos (by omega), hmiddle (n - 1 - i) (by omega) (by omega) (by omega)]
  by_cases hright : i = n - 1 - k
  · subst hright
    have hback : n - 1 - (n - 1 - k) = k := by omega
    rw [if_neg hleft, if_pos rfl, if_pos (by omega), hmiddle k (by omega) (by omega) (by omega)]
    simp only [hback]
  · have hiff : i < k + 1 ∨ n ≤ i + (k + 1) ↔ i < k ∨ n ≤ i + k := by omega
    rw [if_neg hleft, if_neg hright, h i hi, if_congr hiff rfl rfl]

/-- When at most one entry is left in the middle, all are in reverse. -/
theorem OuterReversed.toList_eq (h : OuterReversed old k r) (hk : n ≤ 2 * k + 1) : r.toList = old.toList.reverse := by
  apply List.ext_getElem
  · rw [List.length_reverse, Vector.length_toList, Vector.length_toList]
  · intro i hi hi'
    rw [Vector.length_toList] at hi
    simp only [List.getElem_reverse, Vector.getElem_toList, Vector.length_toList]
    rw [h i hi]
    split_ifs with houter
    · rfl
    · have hmiddle : n - 1 - i = i := by omega
      simp only [hmiddle]

end reversal
