import Accelerators.ParallelFib

namespace accelerators.parallel_fib

variable {table table' : TaskTable} {task task' : FibTask} {k : Int64}

theorem SerialFib_small {n : Int64} (hn : n < 2) : SerialFib n = n := by
  rw [SerialFib, if_pos hn]

theorem SerialFib_large {n : Int64} (hn : ¬ n < 2) : SerialFib n = SerialFib (n - 1) + SerialFib (n - 2) := by
  rw [SerialFib, if_neg hn]

namespace FibTask

def n : FibTask → Int64
  | find n _ | compute n _ | waiting n _ _ _ | insert n _ | assign n _ | release n _ | done n _ => n

/-- The task, or one that it waits for, holds the lock of the entry for `k`. -/
def Owns (k : Int64) : FibTask → Prop
  | assign n _ | release n _ => n = k
  | waiting _ _ a b => a.Owns k ∨ b.Owns k
  | _ => False

/-- What is true of a task and of those it waits for: a finished task has its
    number, a task inside `insert` holds the lock of its entry, and no two tasks
    hold the same lock. -/
def Holds (table : TaskTable) : FibTask → Prop
  | find _ _ | compute _ _ => True
  | waiting n _ a b => ¬ n < 2 ∧ a.n = n - 1 ∧ b.n = n - 2 ∧ a.Holds table ∧ b.Holds table ∧
      ∀ k, a.Owns k → ¬ b.Owns k
  | insert n sum | done n sum => sum = SerialFib n
  | assign n sum => sum = SerialFib n ∧ ∃ value, table n = some ⟨value, true⟩
  | release n sum => sum = SerialFib n ∧ table n = some ⟨sum, true⟩

end FibTask

/-- Every entry that a task can read is right. -/
def ValidTable (table : TaskTable) : Prop := ∀ k value, table k = some ⟨value, false⟩ → value = SerialFib k

theorem FibTask.Holds.locked (h : task.Holds table) (hk : task.Owns k) :
    ∃ value, table k = some ⟨value, true⟩ := by
  induction task with
  | assign n sum =>
    obtain rfl : n = k := hk
    exact h.2
  | release n sum =>
    obtain rfl : n = k := hk
    exact ⟨sum, h.2⟩
  | waiting n sum a b iha ihb =>
    obtain ⟨-, -, -, ha, hb, -⟩ := h
    obtain hk | hk := hk
    · exact iha ha hk
    · exact ihb hb hk
  | _ => cases hk

/-- A task depends on no entries but those whose lock it holds. -/
theorem FibTask.Holds.congr (h : task.Holds table) (hsame : ∀ k, task.Owns k → table' k = table k) :
    task.Holds table' := by
  induction task with
  | assign n sum =>
    obtain ⟨hsum, value, hentry⟩ := h
    exact ⟨hsum, value, (hsame n rfl).trans hentry⟩
  | release n sum => exact ⟨h.1, (hsame n rfl).trans h.2⟩
  | waiting n sum a b iha ihb =>
    obtain ⟨hn, hna, hnb, ha, hb, hdisjoint⟩ := h
    exact ⟨hn, hna, hnb, iha ha fun k hk => hsame k (.inl hk), ihb hb fun k hk => hsame k (.inr hk), hdisjoint⟩
  | _ => exact h

namespace FibTask.Step

theorem n_eq (h : task.Step table table' task') : task'.n = task.n := by
  cases h <;> rfl

/-- A step leaves the entries alone whose lock another task holds. -/
theorem frame (h : task.Step table table' task') (hfree : ¬ task.Owns k) (hentry : table k ≠ none) :
    table' k = table k := by
  induction h with
  | left ha ih => exact ih fun hk => hfree (.inl hk)
  | right hb ih => exact ih fun hk => hfree (.inr hk)
  | insertNew hnone =>
    refine Function.update_of_ne (fun heq => ?_) _ _
    rw [heq] at hentry
    exact hentry hnone
  | assign => exact Function.update_of_ne (fun heq => hfree heq.symm) _ _
  | release => exact Function.update_of_ne (fun heq => hfree heq.symm) _ _
  | _ => rfl

/-- A step takes no lock but that of a new entry. -/
theorem owns (h : task.Step table table' task') (hk : task'.Owns k) : task.Owns k ∨ table k = none := by
  induction h with
  | spawn hn => rcases hk with hk | hk <;> cases hk
  | left ha ih =>
    obtain hk | hk := hk
    · exact (ih hk).imp_left .inl
    · exact .inl (.inr hk)
  | right hb ih =>
    obtain hk | hk := hk
    · exact .inl (.inl hk)
    · exact (ih hk).imp_left .inr
  | insertNew hentry =>
    cases hk
    exact .inr hentry
  | assign => exact .inl hk
  | _ => cases hk

/-- While one child takes a step, its sibling keeps its locks and what it
    relies on. -/
theorem sibling {a a' b : FibTask} (h : a.Step table table' a') (hb : b.Holds table)
    (hdisjoint : ∀ k, a.Owns k → ¬ b.Owns k) : b.Holds table' ∧ ∀ k, a'.Owns k → ¬ b.Owns k := by
  have hpresent : ∀ k, b.Owns k → table k ≠ none := by
    intro k hk
    obtain ⟨value, hentry⟩ := hb.locked hk
    simp [hentry]
  refine ⟨hb.congr fun k hk => h.frame (fun ha' => hdisjoint k ha' hk) (hpresent k hk), fun k hk hkb => ?_⟩
  obtain hka | hnone := h.owns hk
  · exact hdisjoint k hka hkb
  · exact hpresent k hkb hnone

theorem holds (h : task.Step table table' task') (htable : ValidTable table) (htask : task.Holds table) :
    task'.Holds table' := by
  induction h with
  | findHit hentry => exact htable _ _ hentry
  | findMiss hentry => trivial
  | small hn => exact (SerialFib_small hn).symm
  | spawn hn => exact ⟨hn, rfl, rfl, trivial, trivial, fun k hk => hk.elim⟩
  | left hstep ih =>
    obtain ⟨hn, hna, hnb, ha, hb, hdisjoint⟩ := htask
    obtain ⟨hb', hdisjoint'⟩ := hstep.sibling hb hdisjoint
    exact ⟨hn, hstep.n_eq.trans hna, hnb, ih ha, hb', hdisjoint'⟩
  | right hstep ih =>
    obtain ⟨hn, hna, hnb, ha, hb, hdisjoint⟩ := htask
    obtain ⟨ha', hdisjoint'⟩ := hstep.sibling ha fun k hkb hka => hdisjoint k hka hkb
    exact ⟨hn, hna, hstep.n_eq.trans hnb, ha', ih hb, fun k hka hkb => hdisjoint' k hkb hka⟩
  | @sum n sum na nb x y =>
    obtain ⟨hn, hna, hnb, hx, hy, -⟩ := htask
    simp only [FibTask.n] at hna hnb
    simp only [Holds] at hx hy ⊢
    rw [SerialFib_large hn, hx, hy, hna, hnb]
  | insertNew hentry => exact ⟨htask, 0, Function.update_self _ _ _⟩
  | insertOld hentry => exact htask
  | assign => exact ⟨htask.1, Function.update_self _ _ _⟩
  | release hentry => exact htask.1

/-- An entry becomes readable only when its lock is released, with its number in it. -/
theorem validTable (h : task.Step table table' task') (htable : ValidTable table) (htask : task.Holds table) :
    ValidTable table' := by
  induction h with
  | left hstep ih => exact ih htask.2.2.2.1
  | right hstep ih => exact ih htask.2.2.2.2.1
  | @insertNew n sum hentry | @assign n sum =>
    intro k value hk
    rw [Function.update_apply] at hk
    split_ifs at hk with heq
    · cases hk
    · exact htable k value hk
  | @release n sum value' hentry =>
    intro k value hk
    rw [Function.update_apply] at hk
    split_ifs at hk with heq
    · subst heq
      have hvalue := htask.2
      rw [hentry] at hvalue
      cases hk
      cases hvalue
      exact htask.1
    · exact htable k value hk
  | _ => exact htable

/-- An entry that is locked after a step was locked by the step, or before it
    by another task. -/
theorem locked (h : task.Step table table' task') {value : Int64} (hk : table' k = some ⟨value, true⟩) :
    task'.Owns k ∨ (table k = some ⟨value, true⟩ ∧ ¬ task.Owns k) := by
  induction h with
  | @left table' n sum a a' b hstep ih =>
    obtain howns | ⟨hbefore, hfree⟩ := ih hk
    · exact .inl (.inl howns)
    · by_cases hb : b.Owns k
      · exact .inl (.inr hb)
      · exact .inr ⟨hbefore, fun howns => howns.elim hfree hb⟩
  | @right table' n sum a b b' hstep ih =>
    obtain howns | ⟨hbefore, hfree⟩ := ih hk
    · exact .inl (.inr howns)
    · by_cases ha : a.Owns k
      · exact .inl (.inl ha)
      · exact .inr ⟨hbefore, fun howns => howns.elim ha hfree⟩
  | @insertNew n sum hentry =>
    by_cases heq : k = n
    · exact .inl heq.symm
    · rw [Function.update_of_ne heq] at hk
      exact .inr ⟨hk, id⟩
  | @assign n sum =>
    by_cases heq : k = n
    · exact .inl heq.symm
    · rw [Function.update_of_ne heq] at hk
      exact .inr ⟨hk, fun howns => heq (Eq.symm howns)⟩
  | @release n sum value' hentry =>
    by_cases heq : k = n
    · subst heq
      rw [Function.update_self] at hk
      cases hk
    · rw [Function.update_of_ne heq] at hk
      exact .inr ⟨hk, fun howns => heq (Eq.symm howns)⟩
  | sum => exact .inr ⟨hk, fun howns => howns.elim id id⟩
  | _ => exact .inr ⟨hk, id⟩

end FibTask.Step

end accelerators.parallel_fib
