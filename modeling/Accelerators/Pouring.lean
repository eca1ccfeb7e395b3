import Mathlib.Data.FinEnum
import Mathlib.Data.Fintype.Pi

namespace accelerators.pouring

/-- The contents of `n` glasses, a `Vector[Int]`. -/
abbrev State (n : Nat) := Fin n → Int32

variable {n : Nat}

def initialState : State n := fun _ => 0

inductive Move (n : Nat) where
  | Empty (glass : Fin n)
  | Fill (glass : Fin n)
  | Pour (fromGlass toGlass : Fin n)
  deriving DecidableEq, Repr

def Move.change (capacity : State n) : Move n → State n → State n
  | .Empty glass, state => Function.update state glass 0
  | .Fill glass, state => Function.update state glass (capacity glass)
  | .Pour fromGlass toGlass, state =>
    let amount := min (state fromGlass) (capacity toGlass - state toGlass)
    Function.update (Function.update state fromGlass (state fromGlass - amount)) toGlass
      (state toGlass + amount)

def glasses (n : Nat) : List (Fin n) := List.finRange n

def moves (n : Nat) : List (Move n) :=
  (glasses n).map .Empty ++ (glasses n).map .Fill ++
    (glasses n).flatMap fun fromGlass => ((glasses n).filter (fromGlass ≠ ·)).map (.Pour fromGlass)

/-- A path object. Its history has the last move first. -/
structure Path (n : Nat) where
  history : List (Move n)
  endState : State n
  deriving DecidableEq

def Path.extend (capacity : State n) (path : Path n) (move : Move n) : Path n :=
  ⟨move :: path.history, move.change capacity path.endState⟩

def initialPath : Path n := ⟨[], initialState⟩

/-- The order in which a `Set` of objects is iterated. The hash codes of the
    objects decide it, so it can be any rearrangement. -/
structure SetOrder (α : Type) where
  iterate : List α → List α
  perm : ∀ elements, (iterate elements).Perm elements

/-- The order of insertion. -/
instance {α : Type} : Inhabited (SetOrder α) := ⟨⟨id, fun _ => .refl _⟩⟩

/-- `more`, the extensions of all paths to states that are not explored. Paths
    are compared by reference, so the set keeps every one of them. -/
def more (capacity : State n) (order : SetOrder (Path n)) (paths : List (Path n))
    (explored : Finset (State n)) : List (Path n) :=
  (order.iterate paths).flatMap fun path =>
    ((moves n).map (path.extend capacity)).filter fun next => next.endState ∉ explored

/-- The stream `from`, as the list of its elements. It is finite because every
    level explores new states, of which there are finitely many. -/
def fromPaths (capacity : State n) (order : SetOrder (Path n)) (paths : List (Path n))
    (explored : Finset (State n)) : List (List (Path n)) :=
  if paths = [] then []
  else
    paths :: fromPaths capacity order (more capacity order paths explored)
      (explored ∪ ((more capacity order paths explored).map Path.endState).toFinset)
termination_by (exploredᶜ.card, paths.length)
decreasing_by
  rename_i hpaths
  by_cases hmore : more capacity order paths explored = []
  · rw [hmore]
    simpa using Prod.Lex.right _ (List.length_pos_iff.mpr hpaths)
  · obtain ⟨next, hnext⟩ := List.exists_mem_of_ne_nil _ hmore
    have hnew : next.endState ∉ explored := by
      obtain ⟨path, -, hfilter⟩ := List.mem_flatMap.mp hnext
      simpa using (List.mem_filter.mp hfilter).2
    have hend : next.endState ∈ ((more capacity order paths explored).map Path.endState).toFinset :=
      List.mem_toFinset.mpr (List.mem_map_of_mem hnext)
    refine Prod.Lex.left _ _ (Finset.card_lt_card (Finset.compl_ssubset_compl.mpr ?_))
    exact ⟨Finset.subset_union_left, fun hsub => hnew (hsub (Finset.mem_union_right _ hend))⟩

def pathSets (capacity : State n) (order : SetOrder (Path n)) : List (List (Path n)) :=
  fromPaths capacity order [initialPath] {initialState}

def solution (capacity : State n) (order : SetOrder (Path n)) (target : Int32) : List (Path n) :=
  (pathSets capacity order).flatMap fun pathSet =>
    (order.iterate pathSet).filter fun path => ∃ glass, path.endState glass = target

end accelerators.pouring
