import Mathlib.Algebra.Group.Defs
import Accelerators.Assignments
import Accelerators.ReductionTree

open assignments reduction_tree

namespace accelerators.struct_conc

/-- The values of `i` in `for (i = b; i != e; ++i)`. -/
def loop (b e : Nat) (hle : b ≤ e) : List Nat :=
  if h : b ≠ e then b :: loop (b + 1) e (by omega) else []
termination_by e - b

/-- The elements of the arrays, which do not overlap. -/
inductive Cell where
  | x (i : Nat)
  | y (i : Nat)
  deriving DecidableEq

section
variable {E : Type} (f : E → E → E → E) (a : E)

/-- `y[i] = a * x[i] + y[i]`, where `f` computes the right side. -/
def saxpyAt (i : Nat) : Assignment Cell E where
  target := .y i
  sources := [.x i, .y i]
  compute := fun values => f a (values 0) (values 1)

def saxpy_serial (n : Nat) (memory : Cell → E) : Cell → E :=
  (List.range n).foldl (fun m i => Function.update m (.y i) (f a (m (.x i)) (m (.y i)))) memory

/-- `tbb::blocked_range`. -/
structure blocked_range where
  begin : Nat
  «end» : Nat
  begin_le_end : begin ≤ «end»

instance : Membership Nat blocked_range where
  mem r i := r.begin ≤ i ∧ i < r.«end»

/-- The blocks that `parallel_for` makes of the range from `0` to `n`. -/
structure Blocks (n : Nat) (T : Type) where
  block : T → blocked_range
  cover : ∀ i, i < n ↔ ∃ t, i ∈ block t
  disjoint : ∀ t u i, i ∈ block t → i ∈ block u → t = u

/-- What the lambda does with each block. -/
def saxpy_tbb {n : Nat} {T : Type} (blocks : Blocks n T) (t : T) : List (Assignment Cell E) :=
  (loop (blocks.block t).begin (blocks.block t).«end» (blocks.block t).begin_le_end).map (saxpyAt f a)

end

section
variable {F R : Type}

/-- `std::inner_product` of the elements from `b` to `e`. -/
def inner_product (op1 : R → R → R) (op2 : F → F → R) (u v : Nat → F)
    (b e : Nat) (hle : b ≤ e) (init : R) : R :=
  (loop b e hle).foldl (fun acc i => op1 acc (op2 (u i) (v i))) init

/-- The functional form of `parallel_reduce`, with `op` for the body. -/
def tbb_sprod [Add F] [Mul F] [Zero F] {n : Nat} (u v : Nat → F) (plan : Plan 0 n) : F :=
  plan.reduce (inner_product (· + ·) (· * ·) u v) 0 (· + ·)

/-- Sums and products in `double`, to which the elements are converted. -/
def tbb_sprod2 [Add R] [Mul R] [Zero R] (double : F → R) {n : Nat} (u v : Nat → F) (plan : Plan 0 n) : R :=
  plan.reduce (inner_product (· + ·) (fun x y => double x * double y) u v) 0 (· + ·)

end

end accelerators.struct_conc
