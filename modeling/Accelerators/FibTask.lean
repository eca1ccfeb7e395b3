import Accelerators.ParallelFib

open accelerators.parallel_fib (SerialFib)

namespace accelerators.fib_task

def CutOff : Int64 := 4

/-- The variables `x` and `y` of `execute`. -/
inductive Local where
  | x
  | y
  deriving DecidableEq

/-- What a pointer `sum` points to: the variable of `ParallelFib`, or one in the
    frame of a task. -/
inductive Cell where
  | result
  | frame (task : Nat) (v : Local)
  deriving DecidableEq

/-- The next thing to be done with a task. From the second to the last but one,
    these are actions of `execute`, which knows its children `a` and `b`. -/
inductive Phase where
  | spawn
  | execute
  | set_ref_count (a b : Nat)
  | spawn_b (a b : Nat)
  | spawn_a (a b : Nat)
  | wait (a b : Nat)
  | complete
  deriving DecidableEq

/-- A task object, and the frame of its `execute`, where `x` and `y` are not initialised. -/
structure FibTask where
  n : Int64
  sum : Cell
  parent : Option Nat
  ref_count : Nat
  phase : Phase
  frame : Local → Option Int64

/-- Tasks are numbered in the order of allocation. One that is not there was destroyed
    or is not allocated yet. -/
structure Memory where
  tasks : Nat → Option FibTask
  next : Nat
  sum : Option Int64

namespace Memory

def modify (m : Memory) (t : Nat) (f : FibTask → FibTask) : Memory :=
  { m with tasks := Function.update m.tasks t ((m.tasks t).map f) }

/-- `new(parent->allocate_child()) FibTask(n, sum)`. -/
def allocate_child (m : Memory) (parent : Nat) (n : Int64) (sum : Cell) : Memory :=
  let child : FibTask := ⟨n, sum, some parent, 0, .spawn, fun _ => none⟩
  { m with tasks := Function.update m.tasks m.next (some child), next := m.next + 1 }

/-- `spawn(child)`: from now on a worker may execute the child. -/
def spawn (m : Memory) (child : Nat) : Memory := m.modify child fun task => { task with phase := .execute }

/-- The allocation of the two children in `execute`. -/
def fork (m : Memory) (t : Nat) (n : Int64) : Memory :=
  let a := m.next
  let m := m.allocate_child t (n - 1) (.frame t .x)
  let b := m.next
  let m := m.allocate_child t (n - 2) (.frame t .y)
  m.modify t fun task => { task with phase := .set_ref_count a b, frame := fun _ => none }

/-- `*sum = value`, where the pointer must not dangle. -/
def store (m : Memory) (sum : Cell) (value : Int64) : Option Memory :=
  match sum with
  | .result => some { m with sum := some value }
  | .frame t v =>
    match m.tasks t with
    | none => none
    | some _ => some (m.modify t fun task => { task with frame := Function.update task.frame v (some value) })

/-- What the library does when `execute` has returned: the task is destroyed, and
    its parent starts again if nothing is left that it has to wait for. -/
def complete (m : Memory) (t : Nat) (task : FibTask) : Memory :=
  let m := { m with tasks := Function.update m.tasks t none }
  match task.parent with
  | none => m
  | some p => m.modify p fun parent =>
    if parent.ref_count = 1 then { parent with ref_count := 0, phase := .execute }
    else { parent with ref_count := parent.ref_count - 1 }

/-- The next action of a task, if it has one. -/
def act (m : Memory) (t : Nat) : Option Memory := do
  let task ← m.tasks t
  match task.phase with
  | .spawn => none
  | .execute =>
    if task.n < CutOff then do
      let m ← m.store task.sum (SerialFib task.n)
      pure (m.modify t fun task => { task with phase := .complete })
    else pure (m.fork t task.n)
  | .set_ref_count a b => pure (m.modify t fun task => { task with ref_count := 2 + 1, phase := .spawn_b a b })
  | .spawn_b a b => pure ((m.spawn b).modify t fun task => { task with phase := .spawn_a a b })
  | .spawn_a a b => pure ((m.spawn a).modify t fun task => { task with phase := .wait a b })
  | .wait _ _ =>
    if task.ref_count = 1 then do
      let x ← task.frame .x
      let y ← task.frame .y
      let m ← m.store task.sum (x + y)
      pure (m.modify t fun task => { task with ref_count := 0, phase := .complete })
    else none
  | .complete => pure (m.complete t task)

end Memory

/-- The workers perform the actions of the tasks in any order. -/
def Step (m m' : Memory) : Prop := ∃ t, m.act t = some m'

/-- `ParallelFib(n)` has spawned the root task. -/
def ParallelFib (n : Int64) : Memory where
  tasks := Function.update (fun _ => none) 0 (some ⟨n, .result, none, 0, .execute, fun _ => none⟩)
  next := 1
  sum := none

end accelerators.fib_task
