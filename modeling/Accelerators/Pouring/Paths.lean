import Mathlib.Data.Fin.VecNotation
import Mathlib.Data.Fintype.BigOperators
import Accelerators.Pouring.Capacity

namespace accelerators.pouring

variable {n : Nat} {capacity state : State n} {path : Path n} {made : List (Move n)}

/-- The paths that calls of `extend` build from the initial path, with the moves
    of these calls in order. -/
inductive Path.Built (capacity : State n) : Path n → List (Move n) → Prop where
  | initial : Built capacity initialPath []
  | extend {path : Path n} {made : List (Move n)} {move : Move n} (hpath : Built capacity path made)
      (hmove : move ∈ moves n) : Built capacity (path.extend capacity move) (made ++ [move])

theorem Path.Built.history_eq (h : path.Built capacity made) : path.history = made.reverse := by
  induction h with
  | initial => rfl
  | @extend path made move hpath hmove ih =>
    rw [List.reverse_append, List.reverse_singleton, ← ih]
    rfl

/-- The end state of a path is what its comment says: the moves of the history
    applied to the initial state, the last one of the list first. -/
theorem Path.Built.endState_eq (h : path.Built capacity made) :
    path.endState = path.history.foldr (Move.change capacity) initialState := by
  induction h with
  | initial => rfl
  | @extend path made move hpath hmove ih => exact congrArg (move.change capacity) ih

theorem Path.Built.within (hcap : ∀ glass, 0 ≤ capacity glass) (h : path.Built capacity made) :
    WithinCapacity capacity path.endState := by
  rw [h.endState_eq]
  exact (attainable_replay hcap path.history).within

theorem ne_of_pour_mem {fromGlass toGlass : Fin n} (h : .Pour fromGlass toGlass ∈ moves n) :
    fromGlass ≠ toGlass := by
  simpa [moves, glasses] using h

/-- The numbers that `Pour` computes are those of unbounded arithmetic. -/
structure Exact (capacity state : State n) (fromGlass toGlass : Fin n) : Prop where
  room : (capacity toGlass - state toGlass).toInt = (capacity toGlass).toInt - (state toGlass).toInt
  source : (state fromGlass - min (state fromGlass) (capacity toGlass - state toGlass)).toInt =
    (state fromGlass).toInt - (min (state fromGlass) (capacity toGlass - state toGlass)).toInt
  target : (state toGlass + min (state fromGlass) (capacity toGlass - state toGlass)).toInt =
    (state toGlass).toInt + (min (state fromGlass) (capacity toGlass - state toGlass)).toInt

theorem WithinCapacity.exact (h : WithinCapacity capacity state) (fromGlass toGlass : Fin n) :
    Exact capacity state fromGlass toGlass where
  room := h.toInt_room toGlass
  source := by rw [h.toInt_source, h.toInt_amount]
  target := by rw [h.toInt_target, h.toInt_amount]

/-- What is poured out of one glass is in the other one. -/
theorem WithinCapacity.sum_pour (h : WithinCapacity capacity state) {fromGlass toGlass : Fin n}
    (hne : fromGlass ≠ toGlass) :
    ∑ g, ((Move.Pour fromGlass toGlass).change capacity state g).toInt = ∑ g, (state g).toInt := by
  have hsum : ∀ f : Fin n → Int, ∑ g, f g = f toGlass + (f fromGlass +
      ∑ g ∈ (Finset.univ.erase toGlass).erase fromGlass, f g) := by
    intro f
    rw [Finset.add_sum_erase _ f (Finset.mem_erase.mpr ⟨hne, Finset.mem_univ _⟩),
      Finset.add_sum_erase _ f (Finset.mem_univ _)]
  have hothers : ∀ g ∈ (Finset.univ.erase toGlass).erase fromGlass,
      ((Move.Pour fromGlass toGlass).change capacity state g).toInt = (state g).toInt := by
    intro g hg
    obtain ⟨hfrom, hto, -⟩ := by simpa only [Finset.mem_erase] using hg
    rw [h.toInt_pour, if_neg hto, if_neg hfrom]
  rw [hsum, hsum fun g => (state g).toInt, Finset.sum_congr rfl hothers, h.toInt_pour, if_pos rfl,
    h.toInt_pour, if_neg hne, if_pos rfl]
  omega

/-- Pouring stops when the source is empty or the destination is full. -/
theorem WithinCapacity.pour_empties_or_fills (h : WithinCapacity capacity state) {fromGlass toGlass : Fin n}
    (hne : fromGlass ≠ toGlass) :
    (Move.Pour fromGlass toGlass).change capacity state fromGlass = 0 ∨
      (Move.Pour fromGlass toGlass).change capacity state toGlass = capacity toGlass := by
  have hfrom := h.toInt_pour fromGlass toGlass fromGlass
  have hto := h.toInt_pour fromGlass toGlass toGlass
  rw [if_neg hne, if_pos rfl] at hfrom
  rw [if_pos rfl] at hto
  obtain heq | heq := min_choice (state fromGlass).toInt ((capacity toGlass).toInt - (state toGlass).toInt)
  · left
    apply Int32.toInt_inj.mp
    rw [hfrom, amount, heq, sub_self]
    rfl
  · right
    apply Int32.toInt_inj.mp
    rw [hto, amount, heq]
    omega

theorem pour_of_ne {fromGlass toGlass g : Fin n} (hfrom : g ≠ fromGlass) (hto : g ≠ toGlass) :
    (Move.Pour fromGlass toGlass).change capacity state g = state g := by
  rw [Move.change, Function.update_of_ne hto, Function.update_of_ne hfrom]

/-- What holds of every path that is built by `extend`, and of every pouring
    move that may come next. -/
theorem built_path_invariant (hcap : ∀ glass, 0 ≤ capacity glass) (h : path.Built capacity made) :
    path.history = made.reverse ∧
    (∀ glass, 0 ≤ path.endState glass ∧ path.endState glass ≤ capacity glass) ∧
    path.endState = path.history.foldr (Move.change capacity) initialState ∧
    ∀ fromGlass toGlass, .Pour fromGlass toGlass ∈ moves n →
      Exact capacity path.endState fromGlass toGlass ∧
      ∑ g, ((Move.Pour fromGlass toGlass).change capacity path.endState g).toInt =
        ∑ g, (path.endState g).toInt ∧
      ((Move.Pour fromGlass toGlass).change capacity path.endState fromGlass = 0 ∨
        (Move.Pour fromGlass toGlass).change capacity path.endState toGlass = capacity toGlass) ∧
      ∀ g, g ≠ fromGlass → g ≠ toGlass →
        (Move.Pour fromGlass toGlass).change capacity path.endState g = path.endState g := by
  have hwithin := h.within hcap
  refine ⟨h.history_eq, fun glass => ?_, h.endState_eq, fun fromGlass toGlass hmove => ?_⟩
  · obtain ⟨hnonneg, hle⟩ := hwithin glass
    exact ⟨Int32.le_iff_toInt_le.mpr hnonneg, Int32.le_iff_toInt_le.mpr hle⟩
  · have hne := ne_of_pour_mem hmove
    exact ⟨hwithin.exact fromGlass toGlass, hwithin.sum_pour hne, hwithin.pour_empties_or_fills hne,
      fun g hfrom hto => pour_of_ne hfrom hto⟩

/-- Glasses of 4 and 7, the second filled and poured into the first. -/
theorem built_path_invariant_of_two_glasses :
    ∑ g, ((Move.Pour 1 0).change ![4, 7]
      ((Move.Fill 1).change ![4, 7] (initialState : State 2)) g).toInt = 7 := by
  have hbuilt : (initialPath.extend ![4, 7] (.Fill 1)).Built (![4, 7] : State 2) [.Fill 1] :=
    .extend .initial (by decide)
  have hsum := ((built_path_invariant (by decide) hbuilt).2.2.2 1 0 (by decide)).2.1
  exact hsum.trans (by decide)

end accelerators.pouring
