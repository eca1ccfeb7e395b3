import Mathlib.Data.List.Basic
import Mathlib.Logic.Function.Basic

namespace locks

/-- A kind of lock: when a thread can have it at once in a given mode, and how
    often each thread holds it. -/
class LockKind (X : Type) (T Mode : outParam Type) [DecidableEq T] [DecidableEq Mode] where
  Grantable : T → Mode → X → Prop
  grant : T → Mode → X → X
  release : T → X → X
  count : T → Mode → X → Nat
  count_grant : ∀ {t : T} {mode : Mode} {x : X}, Grantable t mode x → ∀ u mode',
    count u mode' (grant t mode x) = count u mode' x + if mode' = mode ∧ u = t then 1 else 0
  count_release : ∀ {t : T} {mode : Mode} {x : X}, 0 < count t mode x → ∀ u mode',
    count u mode' (release t x) = count u mode' x - if mode' = mode ∧ u = t then 1 else 0

/-- A lock, and how it is to be held. -/
@[ext]
structure Request (L Mode : Type) where
  lock : L
  mode : Mode
  deriving DecidableEq, Repr

abbrev Table (L X : Type) := L → X

variable {L X T Mode : Type} [DecidableEq T] [DecidableEq Mode] [LockKind X T Mode] {table : Table L X}
  {held : T → List (Request L Mode)} {t u : T} {r : Request L Mode}

def Grantable (table : Table L X) (t : T) (r : Request L Mode) : Prop :=
  LockKind.Grantable t r.mode (table r.lock)

variable [DecidableEq L]

def grant (table : Table L X) (t : T) (r : Request L Mode) : Table L X :=
  Function.update table r.lock (LockKind.grant t r.mode (table r.lock))

def release (table : Table L X) (t : T) (r : Request L Mode) : Table L X :=
  Function.update table r.lock (LockKind.release t (table r.lock))

/-- The table accounts for what the threads hold, and for nothing else. -/
def Accounts (table : Table L X) (held : T → List (Request L Mode)) : Prop :=
  ∀ t r, LockKind.count t r.mode (table r.lock) = (held t).count r

namespace Accounts

theorem count_pos (h : Accounts table held) (hr : r ∈ held t) : 0 < LockKind.count t r.mode (table r.lock) := by
  rw [h]
  exact List.count_pos_iff.mpr hr

theorem mem_of_count_pos (h : Accounts table held) (hcount : 0 < LockKind.count t r.mode (table r.lock)) :
    r ∈ held t := by
  rw [h] at hcount
  exact List.count_pos_iff.mp hcount

theorem congr {held' : T → List (Request L Mode)} (h : Accounts table held)
    (hsame : ∀ t r, (held' t).count r = (held t).count r) : Accounts table held' := by
  intro t r
  rw [h, hsame]

theorem grant (h : Accounts table held) (hr : Grantable table t r) :
    Accounts (grant table t r) (Function.update held t (r :: held t)) := by
  intro u r'
  have hu := h u r'
  by_cases hlock : r'.lock = r.lock
  · have hcount := LockKind.count_grant hr u r'.mode
    rw [locks.grant, hlock, Function.update_self, hcount, ← hlock, hu]
    by_cases hut : u = t
    · subst hut
      simp only [Function.update_self, List.count_cons, beq_iff_eq, Request.ext_iff, hlock, true_and,
        and_true, @eq_comm _ r.mode]
    · simp [hut]
  · have hne : r ≠ r' := fun heq => hlock (congrArg Request.lock heq.symm)
    rw [locks.grant, Function.update_of_ne hlock, hu]
    by_cases hut : u = t
    · subst hut
      simp [List.count_cons_of_ne hne]
    · simp [hut]

theorem release (h : Accounts table held) (hr : r ∈ held t) :
    Accounts (release table t r) (Function.update held t ((held t).erase r)) := by
  intro u r'
  have hu := h u r'
  by_cases hlock : r'.lock = r.lock
  · have hcount := LockKind.count_release (h.count_pos hr) u r'.mode
    rw [locks.release, hlock, Function.update_self, hcount, ← hlock, hu]
    by_cases hut : u = t
    · subst hut
      simp only [Function.update_self, List.count_erase, beq_iff_eq, Request.ext_iff, hlock, true_and,
        and_true, @eq_comm _ r.mode]
    · simp [hut]
  · have hne : r ≠ r' := fun heq => hlock (congrArg Request.lock heq.symm)
    rw [locks.release, Function.update_of_ne hlock, hu]
    by_cases hut : u = t
    · subst hut
      simp [List.count_erase_of_ne hne.symm]
    · simp [hut]

end Accounts

end locks
