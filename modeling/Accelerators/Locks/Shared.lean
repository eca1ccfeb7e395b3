import Accelerators.Locks

namespace locks

inductive Mode where
  | exclusive
  | shared
  deriving DecidableEq, Repr

/-- Who holds a lock: one holder that excludes all others, or several that
    share it. A lock that nobody shares is free. -/
inductive Holders (T : Type) where
  | exclusive (holder : T)
  | shared (holders : List T)

namespace Holders

variable {T : Type} {t u : T} {mode mode' : Mode} {x : Holders T}

/-- The lock can be had at once. -/
def Grantable : Mode → Holders T → Prop
  | .exclusive, .shared [] => True
  | .shared, .shared _ => True
  | _, _ => False

def grant (t : T) : Mode → Holders T → Holders T
  | .exclusive, _ => .exclusive t
  | .shared, .shared holders => .shared (t :: holders)
  | .shared, .exclusive holder => .exclusive holder

variable [DecidableEq T]

def release (t : T) : Holders T → Holders T
  | .exclusive _ => .shared []
  | .shared holders => .shared (holders.erase t)

/-- How often `t` holds the lock in the given mode. -/
def count (t : T) (mode : Mode) : Holders T → Nat
  | .exclusive holder => if mode = .exclusive ∧ holder = t then 1 else 0
  | .shared holders => if mode = .shared then holders.count t else 0

@[simp] theorem count_exclusive_pos {holder : T} :
    0 < (exclusive holder).count t mode ↔ mode = .exclusive ∧ holder = t := by
  rw [count]
  split_ifs with h <;> simp [h]

@[simp] theorem count_shared_pos {holders : List T} :
    0 < (shared holders).count t mode ↔ mode = .shared ∧ t ∈ holders := by
  rw [count]
  split_ifs with h <;> simp [h]

@[simp] theorem count_free : (shared []).count t mode = 0 := by
  simp [count]

theorem count_grant (h : x.Grantable mode) (t u : T) (mode' : Mode) :
    (x.grant t mode).count u mode' = x.count u mode' + if mode' = mode ∧ u = t then 1 else 0 := by
  cases x with
  | exclusive holder => cases mode <;> cases h
  | shared holders =>
    cases mode with
    | exclusive =>
      cases holders with
      | nil => simp [grant, count, eq_comm]
      | cons holder rest => cases h
    | shared =>
      simp only [grant, count, List.count_cons, beq_iff_eq]
      by_cases hmode : mode' = .shared <;> simp [hmode, eq_comm]

theorem count_release (h : 0 < x.count t mode) (u : T) (mode' : Mode) :
    (x.release t).count u mode' = x.count u mode' - if mode' = mode ∧ u = t then 1 else 0 := by
  cases x with
  | exclusive holder =>
    obtain ⟨rfl, rfl⟩ := count_exclusive_pos.mp h
    simp only [release, count, List.count_nil, ite_self, eq_comm]
    omega
  | shared holders =>
    obtain ⟨rfl, -⟩ := count_shared_pos.mp h
    simp only [release, count, List.count_erase, beq_iff_eq]
    by_cases hmode' : mode' = .shared <;> simp [hmode', eq_comm]

instance : LockKind (Holders T) T Mode where
  Grantable := fun _ => Grantable
  grant := grant
  release := release
  count := count
  count_grant := fun h => count_grant h _
  count_release := count_release

end Holders

variable {L T : Type} [DecidableEq L] [DecidableEq T] {table : Table L (Holders T)}
  {held : T → List (Request L Mode)} {t u : T} {r : Request L Mode}

omit [DecidableEq L] in
theorem grantable_of_free (hfree : table r.lock = .shared []) : Grantable table t r := by
  obtain ⟨l, mode⟩ := r
  cases mode <;> simp_all [Grantable, LockKind.Grantable, Holders.Grantable]

namespace Accounts

theorem not_mem_of_free (h : Accounts table held) (hfree : table r.lock = .shared []) : r ∉ held t := by
  intro hr
  have hcount : 0 < (table r.lock).count t r.mode := h.count_pos hr
  rw [hfree, Holders.count_free] at hcount
  cases hcount

theorem eq_exclusive (h : Accounts table held) {l : L} (ht : ⟨l, .exclusive⟩ ∈ held t) :
    table l = .exclusive t := by
  have hcount : 0 < (table l).count t .exclusive := h.count_pos ht
  cases hl : table l with
  | shared holders => simp [hl] at hcount
  | exclusive holder =>
    simp only [hl, Holders.count_exclusive_pos, true_and] at hcount
    rw [hcount]

/-- A lock that is held exclusively has no other holder. -/
theorem exclusion (h : Accounts table held) {l : L} {mode : Mode} (ht : ⟨l, .exclusive⟩ ∈ held t)
    (hu : ⟨l, mode⟩ ∈ held u) : u = t ∧ mode = .exclusive := by
  have hcount : 0 < (table l).count u mode := h.count_pos hu
  rw [h.eq_exclusive ht, Holders.count_exclusive_pos] at hcount
  exact ⟨hcount.2.symm, hcount.1⟩

/-- It is held only once. -/
theorem count_exclusive_le (h : Accounts table held) (t : T) (l : L) :
    (held t).count ⟨l, .exclusive⟩ ≤ 1 := by
  have hcount : (table l).count t .exclusive = (held t).count ⟨l, .exclusive⟩ := h t ⟨l, .exclusive⟩
  rw [← hcount]
  cases table l with
  | shared holders => simp [Holders.count]
  | exclusive holder =>
    simp only [Holders.count]
    split <;> omega

/-- A request that has to wait waits for a thread that holds the lock. -/
theorem exists_holder (h : Accounts table held) (hr : ¬ Grantable table t r) :
    ∃ u mode, ⟨r.lock, mode⟩ ∈ held u := by
  have hmem : ∀ u mode, 0 < (table r.lock).count u mode → ⟨r.lock, mode⟩ ∈ held u :=
    fun u mode hcount => h.mem_of_count_pos (r := ⟨r.lock, mode⟩) hcount
  cases hl : table r.lock with
  | exclusive holder => exact ⟨holder, .exclusive, hmem _ _ (by simp [hl])⟩
  | shared holders =>
    cases holders with
    | nil => exact absurd (grantable_of_free hl) hr
    | cons holder rest => exact ⟨holder, .shared, hmem _ _ (by simp [hl])⟩

/-- A lock that nobody holds is free. -/
theorem eq_shared_nil (h : Accounts table held) {l : L} (hheld : ∀ t mode, ⟨l, mode⟩ ∉ held t) :
    table l = .shared [] := by
  have hcount : ∀ t mode, (table l).count t mode = 0 := fun t mode =>
    (h t ⟨l, mode⟩).trans (List.count_eq_zero.mpr (hheld t mode))
  cases hl : table l with
  | exclusive holder => simpa [hl, Holders.count] using hcount holder .exclusive
  | shared holders =>
    cases holders with
    | nil => rfl
    | cons holder rest => simpa [hl, Holders.count] using hcount holder .shared

/-- Nobody gets a lock in conflict with one that is held. -/
theorem not_grantable (h : Accounts table held) {l : L} {mode mode' : Mode} (ht : ⟨l, mode⟩ ∈ held t)
    (hconflict : mode = .exclusive ∨ mode' = .exclusive) : ¬ Grantable table u ⟨l, mode'⟩ := by
  have hcount : 0 < (table l).count t mode := h.count_pos ht
  intro hgrant
  simp only [Grantable, LockKind.Grantable] at hgrant
  cases hl : table l with
  | exclusive holder => cases mode' <;> simp [Holders.Grantable, hl] at hgrant
  | shared holders =>
    simp only [hl, Holders.count_shared_pos] at hcount
    obtain ⟨rfl, hmem⟩ := hcount
    obtain rfl : mode' = .exclusive := hconflict.resolve_left (by decide)
    cases holders with
    | nil => cases hmem
    | cons holder rest => simp [Holders.Grantable, hl] at hgrant

end Accounts

end locks
