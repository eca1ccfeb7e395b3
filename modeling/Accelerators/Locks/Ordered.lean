import Mathlib.Data.Fintype.Lattice
import Mathlib.Data.Set.Finite.Basic
import Accelerators.Locks.Recursive

namespace locks

variable {L T : Type} [LinearOrder L]

/-- When threads ask for locks above all that they hold, one of them asks for a
    lock that none of them holds. -/
theorem exists_not_held [Finite T] {waiting : Set T} (hwaiting : waiting.Nonempty) (Asks Holds : T → L → Prop)
    (hasks : ∀ t ∈ waiting, ∃ l, Asks t l ∧ ∀ l', Holds t l' → l' < l) :
    ∃ t ∈ waiting, ∃ l, Asks t l ∧ ∀ u ∈ waiting, ¬ Holds u l := by
  choose request hrequest habove using hasks
  have : Nonempty waiting := hwaiting.to_subtype
  obtain ⟨t, hmax⟩ := Finite.exists_max fun t : waiting => request t t.2
  refine ⟨t, t.2, request t t.2, hrequest t t.2, fun u hu hholds => ?_⟩
  exact absurd (habove u hu _ hholds) (not_lt.mpr (hmax ⟨u, hu⟩))

variable [DecidableEq T] {table : Table L (Recursive T)} {held : T → List (Request L Unit)} {t : T} {l : L}

/-- A thread waits for the owner of a recursive lock, which it does not hold itself. -/
theorem Accounts.exists_owner (h : Accounts table held) (hwait : ¬ Grantable table t ⟨l, ()⟩) :
    (∃ u, ⟨l, ()⟩ ∈ held u) ∧ ⟨l, ()⟩ ∉ held t := by
  cases hl : table l with
  | free => exact absurd (by simp [Grantable, LockKind.Grantable, hl, Recursive.Lockable]) hwait
  | owned owner again =>
    have howner : ⟨l, ()⟩ ∈ held owner :=
      h.mem_of_count_pos (by simp [LockKind.count, hl])
    refine ⟨⟨owner, howner⟩, fun ht => hwait ?_⟩
    obtain rfl := h.owner_unique howner ht
    simp [Grantable, LockKind.Grantable, hl, Recursive.Lockable]

end locks
