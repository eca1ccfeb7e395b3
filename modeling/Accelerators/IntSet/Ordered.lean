import Mathlib.Data.List.Sort
import Accelerators.IntSet

namespace accelerators.int_set.IntSet

variable {α : Type} [LinearOrder α] {s : IntSet α} {x y : α}

/-- Everything on the left is smaller, everything on the right larger. -/
def Ordered : IntSet α → Prop
  | .Empty => True
  | .NonEmpty elem left right =>
    (∀ y ∈ left.traversal, y < elem) ∧ (∀ y ∈ right.traversal, elem < y) ∧ left.Ordered ∧ right.Ordered

theorem Ordered.pairwise (h : s.Ordered) : s.traversal.Pairwise (· < ·) := by
  induction s with
  | Empty => exact .nil
  | NonEmpty elem left right ihleft ihright =>
    obtain ⟨hsmaller, hlarger, hleft, hright⟩ := h
    refine List.pairwise_append.mpr ⟨ihleft hleft, List.pairwise_cons.mpr ⟨hlarger, ihright hright⟩, ?_⟩
    intro y hy z hz
    obtain rfl | hz := List.mem_cons.mp hz
    · exact hsmaller y hy
    · exact (hsmaller y hy).trans (hlarger z hz)

theorem mem_incl : y ∈ (s.incl x).traversal ↔ y = x ∨ y ∈ s.traversal := by
  induction s with
  | Empty => simp [incl, traversal]
  | NonEmpty elem left right ihleft ihright =>
    rw [incl]
    split_ifs with hlt hgt
    · simp only [traversal, List.mem_append, ihleft, or_assoc]
    · simp only [traversal, List.mem_append, List.mem_cons, ihright, or_left_comm]
    · obtain rfl : x = elem := le_antisymm (not_lt.mp hgt) (not_lt.mp hlt)
      refine ⟨.inr, ?_⟩
      rintro (rfl | hmem)
      · simp [traversal]
      · exact hmem

theorem Ordered.incl (h : s.Ordered) (x : α) : (s.incl x).Ordered := by
  induction s with
  | Empty => simp [IntSet.incl, Ordered, traversal]
  | NonEmpty elem left right ihleft ihright =>
    obtain ⟨hsmaller, hlarger, hleft, hright⟩ := h
    rw [IntSet.incl]
    split_ifs with hlt hgt
    · refine ⟨fun y hy => ?_, hlarger, ihleft hleft, hright⟩
      obtain rfl | hy := mem_incl.mp hy
      · exact hlt
      · exact hsmaller y hy
    · refine ⟨hsmaller, fun y hy => ?_, hleft, ihright hright⟩
      obtain rfl | hy := mem_incl.mp hy
      · exact hgt
      · exact hlarger y hy
    · exact ⟨hsmaller, hlarger, hleft, hright⟩

/-- The search finds what is in the set, on the one branch that it takes. -/
theorem Ordered.contains_iff (h : s.Ordered) : s.contains x = true ↔ x ∈ s.traversal := by
  induction s with
  | Empty => simp [contains, traversal]
  | NonEmpty elem left right ihleft ihright =>
    obtain ⟨hsmaller, hlarger, hleft, hright⟩ := h
    rw [contains, traversal, List.mem_append, List.mem_cons]
    split_ifs with hlt hgt
    · rw [ihleft hleft]
      have hright' : x ∉ right.traversal := fun hmem => lt_asymm hlt (hlarger x hmem)
      simp [hlt.ne, hright']
    · rw [ihright hright]
      have hleft' : x ∉ left.traversal := fun hmem => lt_asymm hgt (hsmaller x hmem)
      simp [hgt.ne', hleft']
    · simp [le_antisymm (not_lt.mp hgt) (not_lt.mp hlt)]

/-- Ordered sets with the same elements have the same traversal. -/
theorem Ordered.traversal_eq {s' : IntSet α} (h : s.Ordered) (h' : s'.Ordered)
    (hsame : ∀ x, x ∈ s.traversal ↔ x ∈ s'.traversal) : s.traversal = s'.traversal :=
  h.pairwise.eq_of_mem_iff h'.pairwise hsame

end accelerators.int_set.IntSet
