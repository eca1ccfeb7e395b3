import Accelerators.TransitionSystem
import Accelerators.ParallelFib.Invariant

open transition_system

namespace accelerators.parallel_fib

variable {table table' : TaskTable} {task task' : FibTask}

/-- The most actions that a task can take together with its children. -/
def cost (n : Int64) : Nat :=
  if n < 2 then 5 else cost (n - 1) + cost (n - 2) + 6
termination_by n.toInt.toNat
decreasing_by
  · exact toNat_sub_lt ‹_› (by decide) (by decide)
  · exact toNat_sub_lt ‹_› (by decide) (by decide)

theorem cost_ge (n : Int64) : 5 ≤ cost n := by
  rw [cost]
  split_ifs <;> omega

namespace FibTask

/-- A task with all tasks that it waits for. -/
def tasks : FibTask → List FibTask
  | waiting n sum a b => waiting n sum a b :: (a.tasks ++ b.tasks)
  | task => [task]

/-- The most actions that are left. -/
def weight : FibTask → Nat
  | find n _ => cost n
  | compute n _ => cost n - 1
  | waiting _ _ a b => a.weight + b.weight + 4
  | insert _ _ => 3
  | assign _ _ => 2
  | release _ _ => 1
  | done _ _ => 0

theorem Holds.done_mem {n sum : Int64} (h : task.Holds table) (hmem : .done n sum ∈ task.tasks) :
    sum = SerialFib n := by
  induction task with
  | waiting m x a b iha ihb =>
    obtain ⟨-, -, -, ha, hb, -⟩ := h
    obtain heq | hmem := List.mem_cons.mp hmem
    · cases heq
    · obtain hmem | hmem := List.mem_append.mp hmem
      · exact iha ha hmem
      · exact ihb hb hmem
  | done m x =>
    cases List.mem_singleton.mp hmem
    exact h
  | _ => cases List.mem_singleton.mp hmem

theorem Step.weight_lt (h : task.Step table table' task') : task'.weight < task.weight := by
  induction h with
  | @findHit n sum _ _ | @findMiss n sum _ | @small n sum _ =>
    have hge := cost_ge n
    simp only [weight]
    omega
  | @spawn n sum hn =>
    have hcost : cost n = cost (n - 1) + cost (n - 2) + 6 := by rw [cost, if_neg hn]
    simp only [weight, hcost]
    omega
  | left hstep ih | right hstep ih =>
    simp only [weight]
    omega
  | _ => simp [weight]

/-- A task that does not wait for a lock can go on. -/
theorem exists_step_or_locked (h : task.Holds table) :
    (∃ n sum, task = .done n sum) ∨ (∃ table' task', task.Step table table' task') ∨
      ∃ k value, table k = some ⟨value, true⟩ := by
  induction task with
  | find n sum =>
    rcases hentry : table n with _ | ⟨value, _ | _⟩
    · exact .inr (.inl ⟨_, _, .findMiss hentry⟩)
    · exact .inr (.inl ⟨_, _, .findHit hentry⟩)
    · exact .inr (.inr ⟨n, value, hentry⟩)
  | compute n sum =>
    by_cases hn : n < 2
    · exact .inr (.inl ⟨_, _, .small hn⟩)
    · exact .inr (.inl ⟨_, _, .spawn hn⟩)
  | waiting n sum a b iha ihb =>
    obtain ⟨-, -, -, ha, hb, -⟩ := h
    obtain ⟨na, x, rfl⟩ | ⟨table', a', hstep⟩ | hlocked := iha ha
    · obtain ⟨nb, y, rfl⟩ | ⟨table', b', hstep⟩ | hlocked := ihb hb
      · exact .inr (.inl ⟨_, _, .sum⟩)
      · exact .inr (.inl ⟨_, _, .right hstep⟩)
      · exact .inr (.inr hlocked)
    · exact .inr (.inl ⟨_, _, .left hstep⟩)
    · exact .inr (.inr hlocked)
  | insert n sum =>
    rcases hentry : table n with _ | ⟨value, _ | _⟩
    · exact .inr (.inl ⟨_, _, .insertNew hentry⟩)
    · exact .inr (.inl ⟨_, _, .insertOld hentry⟩)
    · exact .inr (.inr ⟨n, value, hentry⟩)
  | assign n sum => exact .inr (.inl ⟨_, _, .assign⟩)
  | release n sum => exact .inr (.inl ⟨_, _, .release h.2⟩)
  | done n sum => exact .inl ⟨n, sum, rfl⟩

/-- The holder of a lock never waits. -/
theorem exists_step_of_owns {k : Int64} (h : task.Holds table) (hk : task.Owns k) :
    ∃ table' task', task.Step table table' task' := by
  induction task with
  | assign n sum => exact ⟨_, _, .assign⟩
  | release n sum => exact ⟨_, _, .release h.2⟩
  | waiting n sum a b iha ihb =>
    obtain ⟨-, -, -, ha, hb, -⟩ := h
    obtain hk | hk := hk
    · obtain ⟨table', a', hstep⟩ := iha ha hk
      exact ⟨_, _, .left hstep⟩
    · obtain ⟨table', b', hstep⟩ := ihb hb hk
      exact ⟨_, _, .right hstep⟩
  | _ => cases hk

end FibTask

namespace Program

/-- A program that is about to call `ParallelFib` for the given numbers. -/
def start (table : TaskTable) (ns : List Int64) : Program := ⟨table, none, ns, []⟩

/-- What is true whatever the schedule: readable entries and finished tasks
    have their numbers, a task of the running call holds every lock, and the
    results are those of the calls so far. -/
structure Inv (ns : List Int64) (p : Program) : Prop where
  valid : ValidTable p.table
  holds : ∀ task, p.running = some task → task.Holds p.table
  locked : ∀ k value, p.table k = some ⟨value, true⟩ → ∃ task, p.running = some task ∧ task.Owns k
  returned : p.returned = (p.returned.map Prod.fst).map fun n => (n, SerialFib n)
  calls : p.returned.map Prod.fst ++ (p.running.toList.map FibTask.n ++ p.pending) = ns

/-- The most steps that are left. -/
def weight (p : Program) : Nat :=
  (p.running.elim 0 fun task => task.weight + 1) + (p.pending.map fun n => cost n + 2).sum

theorem inv_start (ns : List Int64) (htable : ∀ k entry, table k = some entry → entry = ⟨SerialFib k, false⟩) :
    (start table ns).Inv ns where
  valid := fun k value hk => congrArg Entry.value (htable k _ hk)
  holds := fun task h => by cases h
  locked := fun k value hk => absurd (congrArg Entry.locked (htable k _ hk)) (by simp)
  returned := rfl
  calls := rfl

theorem Step.inv {ns : List Int64} (p q : Program) (hinv : p.Inv ns) (h : Step p q) : q.Inv ns := by
  cases h with
  | @call table n sum pending returned =>
    refine ⟨hinv.valid, ?_, ?_, hinv.returned, by simpa [FibTask.n] using hinv.calls⟩
    · intro task htask
      cases htask
      trivial
    · intro k value hk
      obtain ⟨task, htask, -⟩ := hinv.locked k value hk
      cases htask
  | @execute table table' task task' pending returned hstep =>
    have htask := hinv.holds task rfl
    refine ⟨hstep.validTable hinv.valid htask, ?_, ?_, hinv.returned, ?_⟩
    · rintro t ht
      cases ht
      exact hstep.holds hinv.valid htask
    · intro k value hk
      obtain howns | ⟨hbefore, hfree⟩ := hstep.locked hk
      · exact ⟨task', rfl, howns⟩
      · obtain ⟨t, ht, howns⟩ := hinv.locked k value hbefore
        cases ht
        exact absurd howns hfree
    · simpa [hstep.n_eq] using hinv.calls
  | @ret table n sum pending returned =>
    have hsum : sum = SerialFib n := hinv.holds _ rfl
    refine ⟨hinv.valid, fun task h => (by cases h), ?_, ?_, ?_⟩
    · intro k value hk
      obtain ⟨t, ht, howns⟩ := hinv.locked k value hk
      cases ht
      cases howns
    · have hreturned := hinv.returned
      simp only at hreturned ⊢
      rw [List.map_append, List.map_append, ← hreturned, hsum]
      rfl
    · simpa [FibTask.n] using hinv.calls

theorem Step.weight_lt (p q : Program) (h : Step p q) : q.weight < p.weight := by
  cases h with
  | call =>
    simp only [weight, FibTask.weight, Option.elim, List.map_cons, List.sum_cons]
    omega
  | execute hstep =>
    have hlt := hstep.weight_lt
    simp only [weight, Option.elim]
    omega
  | ret =>
    simp only [weight, FibTask.weight, Option.elim]
    omega

/-- No deadlock: until all calls have returned there is a next step. -/
theorem Inv.exists_step {ns : List Int64} {p : Program} (h : p.Inv ns) :
    (∃ q, Step p q) ∨ p.running = none ∧ p.pending = [] := by
  obtain ⟨table, running, pending, returned⟩ := p
  cases running with
  | none =>
    cases pending with
    | nil => exact .inr ⟨rfl, rfl⟩
    | cons n pending => exact .inl ⟨_, .call 0⟩
  | some task =>
    have htask := h.holds task rfl
    obtain ⟨n, sum, rfl⟩ | ⟨table', task', hstep⟩ | ⟨k, value, hk⟩ := FibTask.exists_step_or_locked htask
    · exact .inl ⟨_, .ret⟩
    · exact .inl ⟨_, .execute hstep⟩
    · obtain ⟨t, ht, howns⟩ := h.locked k value hk
      cases ht
      obtain ⟨table', task', hstep⟩ := FibTask.exists_step_of_owns htask howns
      exact .inl ⟨_, .execute hstep⟩

end Program

namespace FibTask

/-- Actions of a task and of those it waits for. -/
def Runs (steps : Nat) (before after : TaskTable × FibTask) : Prop :=
  Run (fun x y => Step x.1 x.2 y.1 y.2) steps before after

variable {table'' : TaskTable} {task'' a a' b b' : FibTask} {n sum : Int64} {steps steps' : Nat}

theorem Runs.trans (h : Runs steps (table, task) (table', task'))
    (h' : Runs steps' (table', task') (table'', task'')) : Runs (steps + steps') (table, task) (table'', task'') :=
  Run.trans h h'

theorem Runs.step (h : Runs steps (table, task) (table', task')) (hstep : task'.Step table' table'' task'') :
    Runs (steps + 1) (table, task) (table'', task'') := Run.tail h hstep

theorem Step.runs (h : task.Step table table' task') : Runs 1 (table, task) (table', task') := Run.tail (.refl _) h

theorem Runs.left (h : Runs steps (table, a) (table', a')) :
    Runs steps (table, .waiting n sum a b) (table', .waiting n sum a' b) :=
  h.map (f := fun x : TaskTable × FibTask => (x.1, waiting n sum x.2 b)) fun _ _ => Step.left

theorem Runs.right (h : Runs steps (table, b) (table', b')) :
    Runs steps (table, .waiting n sum a b) (table', .waiting n sum a b') :=
  h.map (f := fun x : TaskTable × FibTask => (x.1, waiting n sum a x.2)) fun _ _ => Step.right

theorem Runs.execute {pending : List Int64} {returned : List (Int64 × Int64)}
    (h : Runs steps (table, task) (table', task')) :
    Run Program.Step steps ⟨table, some task, pending, returned⟩ ⟨table', some task', pending, returned⟩ :=
  h.map (f := fun x : TaskTable × FibTask => Program.mk x.1 (some x.2) pending returned) fun _ _ => .execute

theorem runs_insert (hentry : table n = none) :
    Runs 3 (table, .insert n sum) (Function.update table n (some ⟨sum, false⟩), .done n sum) := by
  have hinsert : Step table (.insert n sum) _ _ := .insertNew hentry
  have hassign := hinsert.runs.step .assign
  have hrelease := hassign.step (.release (Function.update_self ..))
  rwa [Function.update_idem, Function.update_idem] at hrelease

end FibTask

/-- In every run of any number of calls on one table, whatever the order of the
    tasks' actions: readable entries, finished tasks and returned results are
    right, the run ends after a bounded number of steps, and where it ends every
    call has returned what `SerialFib` returns. -/
theorem ParallelFib_eq_SerialFib {table : TaskTable}
    (htable : ∀ k entry, table k = some entry → entry = ⟨SerialFib k, false⟩) (ns : List Int64)
    {steps : Nat} {p : Program} (hrun : Run Program.Step steps (Program.start table ns) p) :
    (∀ k value, p.table k = some ⟨value, false⟩ → value = SerialFib k) ∧
    (∀ task, p.running = some task → ∀ n sum, .done n sum ∈ task.tasks → sum = SerialFib n) ∧
    (∀ n result, (n, result) ∈ p.returned → result = SerialFib n) ∧
    steps ≤ (ns.map fun n => cost n + 2).sum ∧
    ((∃ q, Program.Step p q) ∨
      p.running = none ∧ p.returned = ns.map fun n => (n, SerialFib n)) := by
  have hinv : p.Inv ns := hrun.invariant Program.Step.inv (Program.inv_start ns htable)
  have hlength := hrun.length_le Program.Step.weight_lt
  refine ⟨hinv.valid, fun task htask n sum hmem => (hinv.holds task htask).done_mem hmem, ?_, ?_, ?_⟩
  · intro n result hmem
    rw [hinv.returned] at hmem
    obtain ⟨m, -, heq⟩ := List.mem_map.mp hmem
    cases heq
    rfl
  · simp only [Program.start, Program.weight, Option.elim, Nat.zero_add] at hlength
    omega
  · obtain hstep | ⟨hnone, hpending⟩ := hinv.exists_step
    · exact .inl hstep
    · have hcalls := hinv.calls
      simp only [hnone, hpending, Option.toList_none, List.map_nil, List.append_nil] at hcalls
      refine .inr ⟨hnone, ?_⟩
      rw [hinv.returned, hcalls]

/-- The table of these entries, which can all be read. -/
def readable (entries : List (Int64 × Int64)) : TaskTable :=
  entries.foldl (fun table e => Function.update table e.1 (some ⟨e.2, false⟩)) fun _ => none

/-- Two tasks for 1 miss its entry and race to insert it. -/
theorem FibTask.runs_three :
    Runs 25 (fun _ => none, .find 3 0) (readable [(1, 1), (0, 0), (2, 1), (3, 2)], .done 3 2) := by
  have hspawn (n : Int64) (hn : ¬ n < 2) : Runs 2 (fun _ => none, .find n 0)
      (fun _ => none, .waiting n 0 (.find (n - 1) 0) (.find (n - 2) 0)) := (Step.findMiss rfl).runs.step (.spawn hn)
  have hsmall (table : TaskTable) (n : Int64) (hentry : table n = none) (hn : n < 2) :
      Runs 2 (table, .find n 0) (table, .insert n n) := (Step.findMiss hentry).runs.step (.small hn)
  have hspawned := (hspawn 3 (by decide)).trans (hspawn 2 (by decide)).left
  have hmissed := hspawned.trans (hsmall _ 1 rfl (by decide)).right
  have hmissed' := hmissed.trans (hsmall _ 1 rfl (by decide)).left.left
  have hinserted := hmissed'.trans (runs_insert rfl).right
  have hlost := hinserted.step (.left (.left (.insertOld rfl)))
  have hzero := hlost.trans (hsmall _ 0 rfl (by decide)).right.left
  have htwo := (hzero.trans (runs_insert rfl).right.left).step (.left .sum)
  have hthree := (htwo.trans (runs_insert rfl).left).step .sum
  have hdone := hthree.trans (runs_insert rfl)
  exact hdone

/-- The second call finds an entry that the first one has made. -/
theorem ParallelFib_three_then_four : ∃ p task, Run Program.Step 31 (Program.start (fun _ => none) [3, 4]) p ∧
    p.running = some task ∧ (p.table 1 = some ⟨1, false⟩ ∧ 1 = SerialFib 1) ∧
    (.done 3 2 ∈ task.tasks ∧ 2 = SerialFib 3) ∧ ((3, 2) ∈ p.returned ∧ 2 = SerialFib 3) ∧
    31 ≤ ([3, 4].map fun n => cost n + 2).sum := by
  have hcall : Run Program.Step 1 (Program.start (fun _ => none) [3, 4]) _ := (Run.refl _).tail (.call 0)
  have hreturn := (hcall.trans FibTask.runs_three.execute).tail .ret
  have hspawn := ((hreturn.tail (.call 0)).tail (.execute (.findMiss rfl))).tail (.execute (.spawn (by decide)))
  have hfind := hspawn.tail (.execute (.left (.findHit rfl)))
  obtain ⟨hvalid, htasks, hreturned, hsteps, -⟩ := ParallelFib_eq_SerialFib (by simp) [3, 4] hfind
  exact ⟨_, _, hfind, rfl, ⟨rfl, hvalid 1 1 rfl⟩, ⟨by decide, htasks _ rfl 3 2 (by decide)⟩,
    ⟨by decide, hreturned 3 2 (by decide)⟩, hsteps⟩

end accelerators.parallel_fib
