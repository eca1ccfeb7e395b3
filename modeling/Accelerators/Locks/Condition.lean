import Mathlib.Data.Finset.Card

namespace locks

/-- The threads that are blocked on a condition variable. -/
abbrev Condition (T : Type) := Finset T

variable {T : Type} [DecidableEq T] {cond cond' kept : Condition T} {t : T}

/-- Some blocked thread is woken up, if there is one. -/
inductive NotifyOne (cond : Condition T) : Condition T → Prop where
  | nobody (hempty : cond = ∅) : NotifyOne cond cond
  | wake {t : T} (ht : t ∈ cond) : NotifyOne cond (cond.erase t)

theorem exists_notifyOne (cond : Condition T) : ∃ cond', NotifyOne cond cond' := by
  obtain hempty | ⟨t, ht⟩ := cond.eq_empty_or_nonempty
  · exact ⟨cond, .nobody hempty⟩
  · exact ⟨cond.erase t, .wake ht⟩

/-- It need not be one of the threads in `kept`, if others are blocked. -/
theorem exists_notifyOne_keeping (hkept : kept ⊆ cond) (hcard : kept.card < cond.card) :
    ∃ cond', NotifyOne cond cond' ∧ kept ⊆ cond' := by
  obtain ⟨t, ht, htkept⟩ := Finset.exists_mem_notMem_of_card_lt_card hcard
  refine ⟨cond.erase t, .wake ht, fun u hu => Finset.mem_erase.mpr ⟨?_, hkept hu⟩⟩
  rintro rfl
  exact htkept hu

namespace NotifyOne

theorem subset (h : NotifyOne cond cond') : cond' ⊆ cond := by
  cases h with
  | nobody hempty => exact Finset.Subset.refl _
  | wake ht => exact Finset.erase_subset _ _

theorem card (h : NotifyOne cond cond') : cond'.card = cond.card - 1 := by
  cases h with
  | nobody hempty => simp [hempty]
  | wake ht => exact Finset.card_erase_of_mem ht

end NotifyOne

end locks
