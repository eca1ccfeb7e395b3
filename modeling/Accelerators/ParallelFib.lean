import Mathlib.Data.UInt
import Mathlib.Logic.Function.Basic

namespace accelerators.parallel_fib

theorem toInt_sub_small {n d : Int64} (hn : ¬ n < 2) (hd : 0 ≤ d.toInt) (hd' : d.toInt ≤ 2) :
    (n - d).toInt = n.toInt - d.toInt := by
  have htwo : (2 : Int64).toInt = 2 := rfl
  have hle := Int64.le_iff_toInt_le.mp (Int64.not_lt.mp hn)
  have hlt := n.toInt_lt
  rw [Int64.toInt_sub, Int.bmod_eq_of_le] <;> omega

theorem lt_two_iff {n : Int64} : n < 2 ↔ n.toInt < 2 := Int64.lt_iff_toInt_lt

/-- The recursion on smaller arguments. -/
theorem toNat_sub_lt {n d : Int64} (hn : ¬ n < 2) (hd : 0 < d.toInt) (hd' : d.toInt ≤ 2) :
    (n - d).toInt.toNat < n.toInt.toNat := by
  rw [toInt_sub_small hn hd.le hd']
  have hge := lt_two_iff.not.mp hn
  omega

def SerialFib (n : Int64) : Int64 :=
  if n < 2 then n else SerialFib (n - 1) + SerialFib (n - 2)
termination_by n.toInt.toNat
decreasing_by
  · exact toNat_sub_lt ‹_› (by decide) (by decide)
  · exact toNat_sub_lt ‹_› (by decide) (by decide)

/-- An element of the table, and whether an accessor holds its lock. -/
structure Entry where
  value : Int64
  locked : Bool
  deriving DecidableEq, Repr

abbrev TaskTable := Int64 → Option Entry

/-- A task at its next action. `sum` is the content of the cell that it stores
    its result in, so the cells `x` and `y` of a waiting task are those of its
    children `a` and `b`. -/
inductive FibTask where
  | find (n sum : Int64)
  | compute (n sum : Int64)
  | waiting (n sum : Int64) (a b : FibTask)
  | insert (n sum : Int64)
  | assign (n sum : Int64)
  | release (n sum : Int64)
  | done (n sum : Int64)
  deriving DecidableEq, Repr

/-- One action of `execute` in a task or in one of the tasks it waits for.
    `find` and `insert` wait while another task holds the lock of the entry. -/
inductive FibTask.Step : TaskTable → FibTask → TaskTable → FibTask → Prop where
  | findHit {table : TaskTable} {n sum value : Int64} (hentry : table n = some ⟨value, false⟩) :
      Step table (.find n sum) table (.done n value)
  | findMiss {table : TaskTable} {n sum : Int64} (hentry : table n = none) :
      Step table (.find n sum) table (.compute n sum)
  | small {table : TaskTable} {n sum : Int64} (hn : n < 2) :
      Step table (.compute n sum) table (.insert n n)
  | spawn {table : TaskTable} {n sum : Int64} (hn : ¬ n < 2) :
      Step table (.compute n sum) table (.waiting n sum (.find (n - 1) 0) (.find (n - 2) 0))
  | left {table table' : TaskTable} {n sum : Int64} {a a' b : FibTask} (ha : Step table a table' a') :
      Step table (.waiting n sum a b) table' (.waiting n sum a' b)
  | right {table table' : TaskTable} {n sum : Int64} {a b b' : FibTask} (hb : Step table b table' b') :
      Step table (.waiting n sum a b) table' (.waiting n sum a b')
  | sum {table : TaskTable} {n sum na nb x y : Int64} :
      Step table (.waiting n sum (.done na x) (.done nb y)) table (.insert n (x + y))
  | insertNew {table : TaskTable} {n sum : Int64} (hentry : table n = none) :
      Step table (.insert n sum) (Function.update table n (some ⟨0, true⟩)) (.assign n sum)
  | insertOld {table : TaskTable} {n sum value : Int64} (hentry : table n = some ⟨value, false⟩) :
      Step table (.insert n sum) table (.done n sum)
  | assign {table : TaskTable} {n sum : Int64} :
      Step table (.assign n sum) (Function.update table n (some ⟨sum, true⟩)) (.release n sum)
  | release {table : TaskTable} {n sum value : Int64} (hentry : table n = some ⟨value, true⟩) :
      Step table (.release n sum) (Function.update table n (some ⟨value, false⟩)) (.done n sum)

/-- A program that calls `ParallelFib` for one number after another on the
    same table. -/
structure Program where
  table : TaskTable
  running : Option FibTask
  pending : List Int64
  returned : List (Int64 × Int64)

/-- The cell `sum` of a call is not initialised. -/
inductive Program.Step : Program → Program → Prop where
  | call {table : TaskTable} {n : Int64} (sum : Int64) {pending : List Int64}
      {returned : List (Int64 × Int64)} :
      Step ⟨table, none, n :: pending, returned⟩ ⟨table, some (.find n sum), pending, returned⟩
  | execute {table table' : TaskTable} {task task' : FibTask} {pending : List Int64}
      {returned : List (Int64 × Int64)} (htask : task.Step table table' task') :
      Step ⟨table, some task, pending, returned⟩ ⟨table', some task', pending, returned⟩
  | ret {table : TaskTable} {n sum : Int64} {pending : List Int64} {returned : List (Int64 × Int64)} :
      Step ⟨table, some (.done n sum), pending, returned⟩ ⟨table, none, pending, returned ++ [(n, sum)]⟩

end accelerators.parallel_fib
