import Accelerators.IntSet

namespace accelerators.int_set.IntSet

variable {α : Type} [LinearOrder α] {s : IntSet α} {x y : α}

/-- Both methods take the same branch at every node, in search order or not. -/
theorem contains_incl : (s.incl x).contains y = true ↔ y = x ∨ s.contains y = true := by
  induction s with
  | Empty =>
    obtain hlt | rfl | hgt := lt_trichotomy y x
    · simp [incl, contains, hlt, hlt.ne]
    · simp [incl, contains]
    · simp [incl, contains, hgt, hgt.ne', hgt.not_gt]
  | NonEmpty elem left right ihleft ihright =>
    rw [incl]
    split_ifs with hlt hgt
    · rw [contains, contains]
      split_ifs with hylt hygt
      · exact ihleft
      · simp [(hlt.trans hygt).ne']
      · simp
    · rw [contains, contains]
      split_ifs with hylt hygt
      · simp [(hylt.trans hgt).ne]
      · exact ihright
      · simp
    · obtain rfl : x = elem := le_antisymm (not_lt.mp hgt) (not_lt.mp hlt)
      refine ⟨.inr, ?_⟩
      rintro (rfl | hcontains)
      · simp [contains]
      · exact hcontains

theorem incl_of_contains (h : s.contains x = true) : s.incl x = s := by
  induction s with
  | Empty => cases h
  | NonEmpty elem left right ihleft ihright =>
    rw [contains] at h
    rw [incl]
    split_ifs at h ⊢ with hlt hgt
    · rw [ihleft h]
    · rw [ihright h]
    · rfl

theorem incl_incl : (s.incl x).incl x = s.incl x :=
  incl_of_contains (contains_incl.mpr (.inl rfl))

theorem contains_incl_comm {z : α} : ((s.incl x).incl y).contains z = ((s.incl y).incl x).contains z := by
  rw [Bool.eq_iff_iff]
  simp only [contains_incl]
  exact or_left_comm

/-- The laws of a set hold of any tree, also of one with elements that no search
    reaches. -/
theorem incl_laws (s : IntSet α) (x y : α) : ((s.incl x).contains y = true ↔ x = y ∨ s.contains y = true) ∧
    (s.contains x = true → s.incl x = s) ∧ (s.incl x).incl x = s.incl x ∧
    ∀ z, ((s.incl x).incl y).contains z = true ↔ ((s.incl y).incl x).contains z = true := by
  refine ⟨?_, incl_of_contains, incl_incl, fun z => ?_⟩
  · rw [contains_incl, eq_comm]
  · rw [contains_incl_comm]

end accelerators.int_set.IntSet
