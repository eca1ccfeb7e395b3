import Mathlib.Data.List.Sort
import Accelerators.Lists

namespace accelerators.lists

variable {α : Type} [LinearOrder α] {xs ys : List α} {x : α}

theorem insert_perm : (insert x xs).Perm (x :: xs) := by
  induction xs with
  | nil => exact .refl _
  | cons y ys ih =>
    rw [insert]
    split_ifs
    · exact .refl _
    · exact (ih.cons y).trans (.swap x y ys)

theorem insert_pairwise (h : xs.Pairwise (· ≤ ·)) : (insert x xs).Pairwise (· ≤ ·) := by
  induction xs with
  | nil => exact List.pairwise_singleton _ _
  | cons y ys ih =>
    obtain ⟨hy, hys⟩ := List.pairwise_cons.mp h
    rw [insert]
    split_ifs with hlt
    · refine List.pairwise_cons.mpr ⟨fun z hz => ?_, h⟩
      obtain rfl | hz := List.mem_cons.mp hz
      · exact hlt.le
      · exact hlt.le.trans (hy z hz)
    · refine List.pairwise_cons.mpr ⟨fun z hz => ?_, ih hys⟩
      obtain rfl | hz := List.mem_cons.mp (insert_perm.mem_iff.mp hz)
      · exact not_lt.mp hlt
      · exact hy z hz

theorem isort_perm : (isort xs).Perm xs := by
  induction xs with
  | nil => exact .refl _
  | cons y ys ih => exact insert_perm.trans (ih.cons y)

theorem isort_pairwise : (isort xs).Pairwise (· ≤ ·) := by
  induction xs with
  | nil => exact .nil
  | cons y ys ih => exact insert_pairwise ih

theorem merge_perm : (merge xs ys).Perm (xs ++ ys) := by
  fun_induction merge xs ys with
  | case1 ys => exact .refl _
  | case2 x xs1 => rw [List.append_nil]
  | case3 x xs1 y ys1 hlt ih => exact ih.cons x
  | case4 x xs1 y ys1 hlt ih => exact (ih.cons y).trans List.perm_middle.symm

/-- What is taken first is at most what either list has left. -/
theorem merge_pairwise (hxs : xs.Pairwise (· ≤ ·)) (hys : ys.Pairwise (· ≤ ·)) :
    (merge xs ys).Pairwise (· ≤ ·) := by
  fun_induction merge xs ys with
  | case1 ys => exact hys
  | case2 x xs1 => exact hxs
  | case3 x xs1 y ys1 hlt ih =>
    obtain ⟨hx, hxs1⟩ := List.pairwise_cons.mp hxs
    obtain ⟨hy, -⟩ := List.pairwise_cons.mp hys
    refine List.pairwise_cons.mpr ⟨fun z hz => ?_, ih hxs1 hys⟩
    obtain hz | hz := List.mem_append.mp (merge_perm.mem_iff.mp hz)
    · exact hx z hz
    · obtain rfl | hz := List.mem_cons.mp hz
      · exact hlt.le
      · exact hlt.le.trans (hy z hz)
  | case4 x xs1 y ys1 hlt ih =>
    obtain ⟨hx, -⟩ := List.pairwise_cons.mp hxs
    obtain ⟨hy, hys1⟩ := List.pairwise_cons.mp hys
    have hyx : y ≤ x := not_lt.mp hlt
    refine List.pairwise_cons.mpr ⟨fun z hz => ?_, ih hxs hys1⟩
    obtain hz | hz := List.mem_append.mp (merge_perm.mem_iff.mp hz)
    · obtain rfl | hz := List.mem_cons.mp hz
      · exact hyx
      · exact hyx.trans (hx z hz)
    · exact hy z hz

theorem mergeT_eq_merge (xs ys : List α) : mergeT xs ys = merge xs ys := by
  cases xs with
  | nil => rw [mergeT, merge]
  | cons x xs1 =>
    cases ys with
    | nil => rw [mergeT, merge]; simp
    | cons y ys1 => rw [mergeT, merge]

/-- There is one sorted list of given elements. -/
theorem eq_isort (hys : ys.Pairwise (· ≤ ·)) (hperm : ys.Perm xs) : ys = isort xs :=
  (hperm.trans isort_perm.symm).eq_of_pairwise' hys isort_pairwise

theorem isort_append (xs ys : List α) : isort (xs ++ ys) = merge (isort xs) (isort ys) := by
  symm
  apply eq_isort
  · exact merge_pairwise isort_pairwise isort_pairwise
  · exact merge_perm.trans (isort_perm.append isort_perm)

/-- All three sort: insertion one by one, and either merge of what is sorted. -/
theorem isort_merge (xs ys : List α) : (isort xs).Pairwise (· ≤ ·) ∧ (isort xs).Perm xs ∧
    isort (xs ++ ys) = merge (isort xs) (isort ys) ∧ isort (xs ++ ys) = mergeT (isort xs) (isort ys) ∧
    mergeT xs ys = merge xs ys ∧ (xs.Pairwise (· ≤ ·) → ys.Pairwise (· ≤ ·) →
      (merge xs ys).Pairwise (· ≤ ·) ∧ (merge xs ys).Perm (xs ++ ys) ∧ merge xs ys = isort (xs ++ ys)) := by
  refine ⟨isort_pairwise, isort_perm, isort_append xs ys, ?_, mergeT_eq_merge xs ys, fun hxs hys => ?_⟩
  · rw [mergeT_eq_merge, isort_append]
  · have hsorted := merge_pairwise hxs hys
    exact ⟨hsorted, merge_perm, eq_isort hsorted merge_perm⟩

end accelerators.lists
