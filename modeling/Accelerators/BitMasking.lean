import Accelerators.Counters

open counters

namespace accelerators.bit_masking

variable {T : Type}

def DIM : Int32 := 8
def Log2Dim : Int32 := 3

/-- The masks of 64 groups of `DIM` cells, a bit for each, and the values of the cells. -/
structure DataLeafNode (T : Type) where
  mask_bit_buffer : Vector UInt8 64
  data_buffer : Vector T 512

/-- `buffer[index]`, which is undefined outside the vector. -/
def load {α : Type} {n : Nat} (buffer : Vector α n) (index : Int32) : Option α :=
  if index < 0 then none else buffer[index.toInt.toNat]?

/-- `buffer[index] = a`, likewise. -/
def store {α : Type} {n : Nat} (buffer : Vector α n) (index : Int32) (a : α) : Option (Vector α n) :=
  if h : 0 ≤ index ∧ index.toInt.toNat < n then some (buffer.set index.toInt.toNat a h.2) else none

/-- `0x01 << i`. -/
def bit (i : Int32) : UInt32 := 0x01 <<< i.toUInt32

/-- The asserted offset of a cell. The masks with `DIM - 1u` are unsigned. -/
def toOffset (x y z : Int32) : Option Int32 :=
  if (x < 8 ∧ y < 8 ∧ z < 8) ∧ 0 ≤ x ∧ 0 ≤ y ∧ 0 ≤ z then
    let mask := DIM.toUInt32 - 1
    let offsetX := ((x.toUInt32 &&& mask) <<< (2 * Log2Dim).toUInt32).toInt32
    let offsetXY := (offsetX.toUInt32 + ((y.toUInt32 &&& mask) <<< Log2Dim.toUInt32)).toInt32
    some (offsetXY.toUInt32 + (z.toUInt32 &&& mask)).toInt32
  else none

/-- The three numbers that are printed. -/
def fromOffset (offset : Int32) : Int32 × Int32 × Int32 :=
  let x := offset >>> (Log2Dim + Log2Dim)
  let n := offset &&& ((1 <<< (Log2Dim + Log2Dim)) - 1)
  let y := n >>> Log2Dim
  let z := n &&& ((1 <<< Log2Dim) - 1)
  (x, y, z)

namespace DataLeafNode

/-- The constructor, given `T(0)`. -/
def new (zero : T) : DataLeafNode T := ⟨Vector.replicate 64 0, Vector.replicate 512 zero⟩

def setActive (node : DataLeafNode T) (x y z : Int32) (val : T) : Option (DataLeafNode T) := do
  let offset ← toOffset x y z
  let index := offset / DIM
  let shift := offset - index * DIM
  let cells ← load node.mask_bit_buffer index
  let mask_bit_buffer ← store node.mask_bit_buffer index (cells.toUInt32 ||| bit shift).toUInt8
  let data_buffer ← store node.data_buffer offset val
  some ⟨mask_bit_buffer, data_buffer⟩

/-- The offsets that `traverse` collects: `whole_mask_ptr` counts the bits. -/
def traverse (node : DataLeafNode T) : List Int32 :=
  let cell := fun (l : UInt8) (state : List Int32 × Int32) (i : Int32) =>
    (if l.toUInt32 &&& bit i ≠ 0 then state.1 ++ [state.2] else state.1, state.2 + 1)
  (node.mask_bit_buffer.toList.foldl (fun state l => (counter 0 DIM).foldl (cell l) state) ([], 0)).1

end DataLeafNode

/-- A call of `setActive`. -/
structure Activation (T : Type) where
  x : Int32
  y : Int32
  z : Int32
  val : T

/-- Calls of `setActive` one after the other. -/
def setAll (calls : List (Activation T)) (node : DataLeafNode T) : Option (DataLeafNode T) :=
  calls.foldlM (fun node c => node.setActive c.x c.y c.z c.val) node

end accelerators.bit_masking
