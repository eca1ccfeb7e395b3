import Accelerators.Locks

namespace locks

/-- A lock that its owner can lock again, so and so many times. -/
inductive Recursive (T : Type) where
  | free
  | owned (owner : T) (again : Nat)

namespace Recursive

variable {T : Type} {t u : T} {x : Recursive T}

def Lockable (t : T) : Recursive T → Prop
  | .free => True
  | .owned owner _ => owner = t

def lock (t : T) : Recursive T → Recursive T
  | .free => .owned t 0
  | .owned owner again => .owned owner (again + 1)

def unlock : Recursive T → Recursive T
  | .owned owner (again + 1) => .owned owner again
  | .owned _ 0 | .free => .free

variable [DecidableEq T]

/-- How often `t` has to unlock before another thread can lock. -/
def count (t : T) : Recursive T → Nat
  | .free => 0
  | .owned owner again => if owner = t then again + 1 else 0

@[simp] theorem count_owned_pos {owner : T} {again : Nat} : 0 < (owned owner again).count t ↔ owner = t := by
  rw [count]
  split_ifs with h <;> simp [h]

theorem count_lock (h : x.Lockable t) (u : T) : (x.lock t).count u = x.count u + if u = t then 1 else 0 := by
  cases x with
  | free => simp [lock, count, eq_comm]
  | owned owner again =>
    obtain rfl : owner = t := h
    by_cases hu : u = owner
    · simp [lock, count, hu]
    · simp [lock, count, hu, Ne.symm hu]

theorem count_unlock (h : 0 < x.count t) (u : T) : x.unlock.count u = x.count u - if u = t then 1 else 0 := by
  cases x with
  | free => simp [count] at h
  | owned owner again =>
    obtain rfl := count_owned_pos.mp h
    by_cases hu : u = owner
    · cases again <;> simp [unlock, count, hu]
    · cases again <;> simp [unlock, count, hu, Ne.symm hu]

/-- A recursive lock has one owner. -/
theorem eq_of_count_pos (ht : 0 < x.count t) (hu : 0 < x.count u) : u = t := by
  cases x with
  | free => simp [count] at ht
  | owned owner again => exact (count_owned_pos.mp hu).symm.trans (count_owned_pos.mp ht)

instance : LockKind (Recursive T) T Unit where
  Grantable := fun t _ => Lockable t
  grant := fun t _ => lock t
  release := fun _ => unlock
  count := fun t _ => count t
  count_grant := fun h u _ => by simpa using count_lock h u
  count_release := fun h u _ => by simpa using count_unlock h u

end Recursive

/-- A recursive lock that two threads hold is held by one. -/
theorem Accounts.owner_unique {L T : Type} [DecidableEq L] [DecidableEq T] {table : Table L (Recursive T)}
    {held : T → List (Request L Unit)} {t u : T} {l : L} (h : Accounts table held) (ht : ⟨l, ()⟩ ∈ held t)
    (hu : ⟨l, ()⟩ ∈ held u) : u = t :=
  Recursive.eq_of_count_pos (h.count_pos ht) (h.count_pos hu)

end locks
