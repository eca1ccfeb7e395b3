import Mathlib.Algebra.BigOperators.Group.Finset.Basic
import Mathlib.Algebra.BigOperators.Intervals
import Accelerators.FibTask.Actions
import Accelerators.TransitionSystem

open accelerators.parallel_fib (SerialFib toNat_sub_lt)
open transition_system

namespace accelerators.fib_task

variable {n₀ : Int64} {m m₁ m' : Memory} {t c p k : Nat} {task parent child : FibTask} {v : Local}

theorem not_lt_two {n : Int64} (hn : ¬ n < CutOff) : ¬ n < 2 := by
  intro hlt
  rw [Int64.lt_iff_toInt_lt] at hn hlt
  exact hn (hlt.trans (by decide))

/-- The actions of a task and of all tasks below it. -/
def cost (n : Int64) : Nat :=
  if n < CutOff then 2 else cost (n - 1) + cost (n - 2) + 6
termination_by n.toInt.toNat
decreasing_by
  · exact toNat_sub_lt (not_lt_two ‹_›) (by decide) (by decide)
  · exact toNat_sub_lt (not_lt_two ‹_›) (by decide) (by decide)

/-- The actions that are left for a task and for those that it has not yet allocated. -/
def FibTask.weight (task : FibTask) : Nat :=
  match task.phase with
  | .spawn | .execute => cost task.n
  | .set_ref_count _ _ => 5
  | .spawn_b _ _ => 4
  | .spawn_a _ _ => 3
  | .wait _ _ => 2
  | .complete => 1

def Memory.weight (m : Memory) : Nat := ∑ t ∈ Finset.range m.next, (m.tasks t).elim 0 FibTask.weight

/-- An action of one task that nobody else has more or less to do after. -/
theorem weight_eq (ht : t < m.next) (hnext : m'.next = m.next)
    (hothers : ∀ u, u ≠ t → (m'.tasks u).elim 0 FibTask.weight = (m.tasks u).elim 0 FibTask.weight)
    (hown : (m.tasks t).elim 0 FibTask.weight = (m'.tasks t).elim 0 FibTask.weight + 1) :
    m.weight = m'.weight + 1 := by
  have hmem : t ∈ Finset.range m.next := Finset.mem_range.mpr ht
  rw [Memory.weight, Memory.weight, hnext, ← Finset.add_sum_erase _ _ hmem, ← Finset.add_sum_erase _ _ hmem, hown,
    Finset.sum_congr rfl fun u hu => (hothers u (Finset.ne_of_mem_erase hu)).symm]
  omega

theorem store_weight {sum : Cell} {value : Int64} (hstore : m.store sum value = some m₁) :
    m₁.next = m.next ∧ ∀ u, (m₁.tasks u).elim 0 FibTask.weight = (m.tasks u).elim 0 FibTask.weight := by
  cases sum with
  | result =>
    obtain rfl := Option.some.inj hstore
    exact ⟨rfl, fun u => rfl⟩
  | frame p v =>
    rw [Memory.store] at hstore
    cases hp : m.tasks p with
    | none =>
      rw [hp] at hstore
      cases hstore
    | some parent =>
      rw [hp] at hstore
      obtain rfl := Option.some.inj hstore
      refine ⟨rfl, fun u => ?_⟩
      rw [modify_tasks, hp]
      split_ifs with hu
      · rw [hu, hp]
        rfl
      · rfl

theorem Inv.spawn_weight (h : Inv n₀ m) (ht : m.tasks t = some task) (hc : task.phase.child v = some c)
    (hnot : task.phase.spawned v = false) {phase : Phase}
    (hweight : task.weight = FibTask.weight { task with phase := phase } + 1) :
    m.weight = ((m.spawn c).modify t fun task => { task with phase := phase }).weight + 1 := by
  have hne : t ≠ c := ((h.family t task ht).large v c hc).1.ne
  obtain ⟨child, hchild, hallocated⟩ := h.allocated ht hc hnot
  have htasks := spawn_tasks ht hchild hne phase
  refine fib_task.weight_eq (h.lt_next ht) rfl (fun u hu => ?_) ?_
  · rw [htasks, if_neg hu]
    split_ifs with huc
    · rw [huc, hchild]
      simp [FibTask.weight, hallocated]
    · rfl
  · rw [htasks, if_pos rfl, ht]
    exact hweight

theorem Inv.weight_eq (h : Inv n₀ m) (ht : m.tasks t = some task) (hacts : Acts m t task m') :
    m.weight = m'.weight + 1 := by
  have hlt := h.lt_next ht
  cases hacts with
  | @small m₁ hphase hn hstore =>
    obtain ⟨hnext, hsame⟩ := store_weight hstore
    obtain ⟨-, -, ht', -⟩ := h.store ht hstore
    refine fib_task.weight_eq hlt hnext (fun u hu => ?_) ?_
    · rw [modify_tasks, if_neg hu, hsame]
    · rw [modify_tasks, if_pos rfl, ht, ht']
      simp only [Option.map_some, Option.elim_some, FibTask.weight, hphase]
      rw [cost, if_pos hn]
  | fork hphase hn =>
    have htasks := fork_tasks ht hlt
    have hnext : (m.fork t task.n).next = m.next + 1 + 1 := rfl
    have hmem : t ∈ Finset.range m.next := Finset.mem_range.mpr hlt
    have hsame : ∀ u ∈ (Finset.range m.next).erase t,
        ((m.fork t task.n).tasks u).elim 0 FibTask.weight = (m.tasks u).elim 0 FibTask.weight := by
      intro u hu
      have hu' := Finset.mem_range.mp (Finset.mem_of_mem_erase hu)
      rw [htasks, if_neg (Finset.ne_of_mem_erase hu), if_neg (by omega), if_neg (by omega)]
    have hcost : cost task.n = cost (task.n - 1) + cost (task.n - 2) + 6 := by
      rw [cost, if_neg hn]
    rw [Memory.weight, Memory.weight, hnext, Finset.sum_range_succ, Finset.sum_range_succ,
      ← Finset.add_sum_erase _ _ hmem, ← Finset.add_sum_erase _ _ hmem, Finset.sum_congr rfl hsame,
      htasks t, if_pos rfl, htasks m.next, if_neg hlt.ne',
      if_neg (by omega), if_pos rfl, htasks (m.next + 1), if_neg (by omega), if_pos rfl, ht]
    simp only [Option.elim_some, FibTask.weight, hphase, forked, arg]
    omega
  | set_ref_count hphase =>
    refine fib_task.weight_eq hlt rfl (fun u hu => ?_) ?_
    · rw [modify_tasks, if_neg hu]
    · rw [modify_tasks, if_pos rfl, ht]
      simp [FibTask.weight, hphase]
  | @spawn_b a b hphase =>
    have hb : task.phase.child .y = some b := by rw [hphase]; rfl
    exact h.spawn_weight ht hb (by rw [hphase]; rfl) (by simp [FibTask.weight, hphase])
  | @spawn_a a b hphase =>
    have ha : task.phase.child .x = some a := by rw [hphase]; rfl
    exact h.spawn_weight ht ha (by rw [hphase]; rfl) (by simp [FibTask.weight, hphase])
  | @sum a b x y m₁ hphase hcount hx hy hstore =>
    obtain ⟨hnext, hsame⟩ := store_weight hstore
    obtain ⟨-, -, hsum⟩ := h.sum_eq ht hphase hcount hx hy
    obtain ⟨-, -, ht', -⟩ := h.store ht (hsum ▸ hstore)
    refine fib_task.weight_eq hlt hnext (fun u hu => ?_) ?_
    · rw [modify_tasks, if_neg hu, hsame]
    · rw [modify_tasks, if_pos rfl, ht, ht']
      simp [FibTask.weight, hphase]
  | complete hphase =>
    obtain ⟨hnone, rfl, -, -⟩ | ⟨p, parent, v, hparent, hp, hv, -, -, hlt'⟩ := h.sum_cases ht
    · have htasks : ∀ u, (m.complete 0 task).tasks u = if u = 0 then none else m.tasks u := complete_root_tasks hnone
      refine fib_task.weight_eq hlt (by rw [Memory.complete, hnone]) (fun u hu => ?_) ?_
      · rw [htasks, if_neg hu]
      · rw [htasks, if_pos rfl, ht]
        simp [FibTask.weight, hphase]
    · obtain ⟨-, hcount, -⟩ := h.counted hp hv ht (by simp [hphase])
      have htasks := complete_tasks hparent hp hlt'.ne hcount
      refine fib_task.weight_eq hlt (by rw [Memory.complete, hparent]; rfl) (fun u hu => ?_) ?_
      · rw [htasks]
        split_ifs with hup
        · rw [hup, hp]
          rfl
        · rfl
      · rw [htasks, if_neg hlt'.ne', if_pos rfl, ht]
        simp [FibTask.weight, hphase]

/-- The pointer of a task never dangles. -/
theorem Inv.exists_store (h : Inv n₀ m) (ht : m.tasks t = some task) (value : Int64) :
    ∃ m₁, m.store task.sum value = some m₁ := by
  obtain ⟨-, -, hsum, -⟩ | ⟨p, parent, v, -, hp, -, hsum, -, -⟩ := h.sum_cases ht
  · rw [hsum]
    exact ⟨_, rfl⟩
  · rw [hsum, Memory.store, hp]
    exact ⟨_, rfl⟩

theorem Inv.step_sum (h : Inv n₀ m) {a b : Nat} (ht : m.tasks t = some task) (hphase : task.phase = .wait a b)
    (hcount : task.ref_count = 1) : ∃ m', Step m m' := by
  have ha : task.phase.child .x = some a := by rw [hphase]; rfl
  have hb : task.phase.child .y = some b := by rw [hphase]; rfl
  obtain ⟨-, -, hvalue⟩ := h.waited ht ha hb (by simp [hphase]) hcount
  obtain ⟨m₁, hstore⟩ := h.exists_store ht (SerialFib (arg task.n .x) + SerialFib (arg task.n .y))
  exact ⟨_, (Acts.sum hphase hcount (hvalue .x) (hvalue .y) hstore).step ht⟩

/-- With a count that is not one, a child is still there. -/
theorem Inv.exists_child (h : Inv n₀ m) {a b : Nat} (ht : m.tasks t = some task) (hphase : task.phase = .wait a b)
    (hcount : task.ref_count ≠ 1) : ∃ v c child, task.phase.child v = some c ∧ m.tasks c = some child := by
  have ha : task.phase.child .x = some a := by rw [hphase]; rfl
  have hb : task.phase.child .y = some b := by rw [hphase]; rfl
  have halive := ((h.family t task ht).count a b ha hb).2 (by simp [hphase])
  rw [alive, Memory.known, Memory.known] at halive
  cases ha' : m.tasks a with
  | some child => exact ⟨.x, a, child, ha, ha'⟩
  | none =>
    cases hb' : m.tasks b with
    | some child => exact ⟨.y, b, child, hb, hb'⟩
    | none =>
      rw [ha', hb'] at halive
      exact absurd halive hcount

/-- A task that was spawned can act, or one below it can. -/
theorem Inv.exists_step_of_spawned (h : Inv n₀ m) (ht : m.tasks t = some task) (hspawned : task.phase ≠ .spawn) :
    ∃ m', Step m m' := by
  induction hdepth : m.next - t using Nat.strongRecOn generalizing t task with
  | ind depth ih =>
    cases hphase : task.phase with
    | spawn => exact absurd hphase hspawned
    | execute =>
      by_cases hn : task.n < CutOff
      · obtain ⟨m₁, hstore⟩ := h.exists_store ht (SerialFib task.n)
        exact ⟨_, (Acts.small hphase hn hstore).step ht⟩
      · exact ⟨_, (Acts.fork hphase hn).step ht⟩
    | set_ref_count a b => exact ⟨_, (Acts.set_ref_count hphase).step ht⟩
    | spawn_b a b => exact ⟨_, (Acts.spawn_b hphase).step ht⟩
    | spawn_a a b => exact ⟨_, (Acts.spawn_a hphase).step ht⟩
    | complete => exact ⟨_, (Acts.complete hphase).step ht⟩
    | wait a b =>
      by_cases hcount : task.ref_count = 1
      · exact h.step_sum ht hphase hcount
      · obtain ⟨v, c, child, hc, hchild⟩ := h.exists_child ht hphase hcount
        obtain ⟨hlt, hlt', -⟩ := (h.family t task ht).large v c hc
        refine ih (m.next - c) (by omega) hchild ?_ rfl
        have hslot := h.childAt ht hc
        rw [ChildAt, known_of_tasks hchild, hphase] at hslot
        exact of_decide_eq_false hslot.2.2.2.1

theorem Inv.exists_step (h : Inv n₀ m) (ht : m.tasks t = some task) : ∃ m', Step m m' := by
  by_cases hspawned : task.phase = .spawn
  · obtain ⟨-, rfl⟩ | ⟨p, parent, v, -, hp, hv⟩ := h.owned t task ht
    · have hroot := h.root
      rw [known_of_tasks ht] at hroot
      exact absurd hspawned (of_decide_eq_false hroot.2.2.2.1)
    · refine h.exists_step_of_spawned hp fun hphase => ?_
      obtain ⟨a, b, ha, -⟩ := Phase.children hv
      rw [hphase] at ha
      cases ha
  · exact h.exists_step_of_spawned ht hspawned

end accelerators.fib_task
