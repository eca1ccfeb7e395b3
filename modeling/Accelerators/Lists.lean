import Mathlib.Data.List.TakeDrop
import Mathlib.Order.Lattice

namespace accelerators.lists

section
variable {α : Type} [LinearOrder α]

/-! The numbers are only compared. -/

def insert (x : α) (xs : List α) : List α :=
  match xs with
  | [] => [x]
  | y :: ys => if x < y then x :: xs else y :: insert x ys

def isort : List α → List α
  | [] => []
  | y :: ys => insert y (isort ys)

def merge (xs ys : List α) : List α :=
  match xs with
  | [] => ys
  | x :: xs1 =>
    match ys with
    | [] => x :: xs1
    | y :: ys1 => if x < y then x :: merge xs1 (y :: ys1) else y :: merge (x :: xs1) ys1
termination_by xs.length + ys.length

/-- The first step of a merge, which leaves the rest to `merge`. -/
def mergeT (xs ys : List α) : List α :=
  match xs, ys with
  | [], ys => ys
  | xs, [] => xs
  | x :: xs1, y :: ys1 => if x < y then x :: merge xs1 (y :: ys1) else y :: merge (x :: xs1) ys1

end

/-- A value of any type, of which only lists are told apart from the rest. -/
inductive Any (T : Type) where
  | atom (a : T)
  | list (ys : List (Any T))

variable {T : Type}

def flatten : List (Any T) → List (Any T)
  | [] => []
  | .list (y :: ys) :: yss => flatten (y :: ys) ++ flatten yss
  | y :: ys => y :: flatten ys
termination_by xs => sizeOf xs

variable [DecidableEq T]

/-- The element that a group starts with is in it. -/
theorem length_lt_of_span {x : T} {xs1 b e : List T} (h : ((x :: xs1).span fun y => y == x) = (b, e)) :
    e.length < (x :: xs1).length := by
  rw [List.span_eq_takeWhile_dropWhile, Prod.mk.injEq] at h
  have hrest : (xs1.dropWhile fun y => y == x).length ≤ xs1.length := (List.dropWhile_sublist _).length_le
  rw [← h.2, List.dropWhile_cons, beq_self_eq_true, if_pos rfl, List.length_cons]
  omega

def pack (xs : List T) : List (List T) :=
  match xs with
  | [] => []
  | x :: xs1 =>
    match h : (x :: xs1).span fun y => y == x with
    | (b, e) =>
      have := length_lt_of_span h
      b :: pack e
termination_by xs.length
decreasing_by exact this

/-- `head` fails on an empty group. -/
def encode (xs : List T) : Option (List (T × Nat)) :=
  (pack xs).mapM fun ys => do
    let y ← ys.head?
    pure (y, ys.length)

end accelerators.lists
