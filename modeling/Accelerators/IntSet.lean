import Mathlib.Order.Lattice

namespace accelerators.int_set

variable {α : Type} [LinearOrder α]

/-- A set as a value. Elements are only compared, so their type does not matter. -/
inductive IntSet (α : Type) where
  | Empty
  | NonEmpty (elem : α) (left right : IntSet α)

namespace IntSet

def contains (x : α) : IntSet α → Bool
  | .Empty => false
  | .NonEmpty elem left right =>
    if x < elem then left.contains x
    else if elem < x then right.contains x
    else true

def incl (x : α) : IntSet α → IntSet α
  | .Empty => .NonEmpty x .Empty .Empty
  | .NonEmpty elem left right =>
    if x < elem then .NonEmpty elem (left.incl x) right
    else if elem < x then .NonEmpty elem left (right.incl x)
    else .NonEmpty elem left right

/-- The elements in the order in which `toString` prints them. -/
def traversal : IntSet α → List α
  | .Empty => []
  | .NonEmpty elem left right => left.traversal ++ elem :: right.traversal

end IntSet

/-- An object of one of the two classes. Its fields are references to objects
    that were there before it. -/
inductive Object (α : Type) where
  | Empty
  | NonEmpty (elem : α) (left right : Nat)

/-- All objects that were ever constructed, the newest first. The reference to an
    object is the number of those that are older. -/
abbrev Heap (α : Type) := List (Object α)

def alloc (heap : Heap α) (object : Object α) : Heap α × Nat := (object :: heap, heap.length)

/-- `contains` of the object that `ref` refers to; there is none for a reference
    to no object. -/
def contains (x : α) : Heap α → Nat → Option Bool
  | [], _ => none
  | object :: older, ref =>
    if ref = older.length then
      match object with
      | .Empty => some false
      | .NonEmpty elem left right =>
        if x < elem then contains x older left
        else if elem < x then contains x older right
        else some true
    else contains x older ref

/-- `incl` of the object that `ref` refers to among `objects`. New objects go to
    the heap, old ones are shared. -/
def incl (x : α) : (objects : Heap α) → (ref : Nat) → (heap : Heap α) → Option (Heap α × Nat)
  | [], _, _ => none
  | object :: older, ref, heap =>
    if ref = older.length then
      match object with
      | .Empty =>
        let (heap, left) := alloc heap .Empty
        let (heap, right) := alloc heap .Empty
        some (alloc heap (.NonEmpty x left right))
      | .NonEmpty elem left right =>
        if x < elem then do
          let (heap, left') ← incl x older left heap
          some (alloc heap (.NonEmpty elem left' right))
        else if elem < x then do
          let (heap, right') ← incl x older right heap
          some (alloc heap (.NonEmpty elem left right'))
        else some (heap, ref)
    else incl x older ref heap

/-- A new `Empty`. -/
def start : Heap α × Nat := alloc [] .Empty

/-- `incl` of all numbers one after another, each into the set before it. -/
def inclAll : List α → Heap α × Nat → Option (Heap α × Nat)
  | [], version => some version
  | x :: xs, (heap, ref) => incl x heap ref heap >>= inclAll xs

/-- The value of the object that `ref` refers to. -/
def tree : Heap α → Nat → Option (IntSet α)
  | [], _ => none
  | object :: older, ref =>
    if ref = older.length then
      match object with
      | .Empty => some .Empty
      | .NonEmpty elem left right => do
        some (.NonEmpty elem (← tree older left) (← tree older right))
    else tree older ref

end accelerators.int_set
