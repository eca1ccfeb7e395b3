import Mathlib.Data.Fintype.Prod
import Accelerators.Counters
import Accelerators.Assignments

open assignments counters

namespace accelerators.matrix_sum

/-- The elements of the matrices, which do not overlap. -/
inductive Cell where
  | A (i : Int)
  | B (i : Int)
  | C (i : Int)
  deriving DecidableEq

variable {E : Type} (add : E → E → E)

/-- `C[i] = A[i] + B[i]`. -/
def sumAt (i : Int) : Assignment Cell E where
  target := .C i
  sources := [.A i, .B i]
  compute := fun values => add (values 0) (values 1)

/-- The pointers of `sumMatrixOnHost`, as offsets into the matrices, and the memory. -/
structure Host (E : Type) where
  ia : Int
  ib : Int
  ic : Int
  memory : Cell → E

/-- `ic[ix] = ia[ix] + ib[ix]`. -/
def Host.sum (h : Host E) (ix : Int32) : Host E :=
  let value := add (h.memory (.A (h.ia + ix.toInt))) (h.memory (.B (h.ib + ix.toInt)))
  { h with memory := Function.update h.memory (.C (h.ic + ix.toInt)) value }

def Host.advance (nx : Int32) (h : Host E) : Host E :=
  { h with ia := h.ia + nx.toInt, ib := h.ib + nx.toInt, ic := h.ic + nx.toInt }

def sumMatrixOnHost (nx ny : Int32) (memory : Cell → E) : Cell → E :=
  let row := fun (h : Host E) (_iy : Int32) => ((counter 0 nx).foldl (Host.sum add) h).advance nx
  ((counter 0 ny).foldl row ⟨0, 0, 0, memory⟩).memory

/-- `iy * nx + ix`, where the product is an `int` and the sum an `unsigned int`. -/
def idx (nx iy : Int32) (ix : UInt32) : Int32 := ((iy * nx).toUInt32 + ix).toInt32

/-- The assignments of one thread of the kernel. The bound `nx` is converted to
    `unsigned int` for the comparison. -/
def sumMatrixOnGPU1D (nx ny : Int32) (threadIdx blockIdx blockDim : UInt32) : List (Assignment Cell E) :=
  let ix := threadIdx + blockIdx * blockDim
  if ix < nx.toUInt32 then (counter 0 ny).map fun iy => sumAt add (idx nx iy ix).toInt else []

/-- The launch configuration of `main`. -/
def block : UInt32 := 32

def grid (nx : Int32) : UInt32 := (nx.toUInt32 + block - 1) / block

/-- A thread of the launch: `blockIdx.x` and `threadIdx.x`. -/
abbrev ThreadId (nx : Int32) : Type := Fin (grid nx).toNat × Fin block.toNat

def launch (nx ny : Int32) (t : ThreadId nx) : List (Assignment Cell E) :=
  sumMatrixOnGPU1D add nx ny (UInt32.ofNat t.2) (UInt32.ofNat t.1) block

end accelerators.matrix_sum
