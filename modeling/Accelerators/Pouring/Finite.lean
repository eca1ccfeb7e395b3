import Mathlib.Data.Fintype.BigOperators
import Accelerators.Pouring.Capacity
import Accelerators.Pouring.Solvable

open breadth_first

namespace accelerators.pouring

variable {n : Nat} {capacity : State n} {order : SetOrder (Path n)}

/-- The arguments of the recursive calls of `from`, which follow each other
    for as long as the stream is unfolded. -/
def fromCall (capacity : State n) (order : SetOrder (Path n)) : Nat → List (Path n) × Finset (State n)
  | 0 => ([initialPath], {initialState})
  | k + 1 =>
    let (paths, explored) := fromCall capacity order k
    (more capacity order paths explored,
      explored ∪ ((more capacity order paths explored).map Path.endState).toFinset)

theorem level_fromCall (k : Nat) :
    Level capacity k (fromCall capacity order k).1 (fromCall capacity order k).2 := by
  induction k with
  | zero => exact level_zero
  | succ k ih => exact ih.succ

/-- One step of the unfolding. -/
theorem fromPaths_fromCall {k : Nat} (hne : (fromCall capacity order k).1 ≠ []) :
    fromPaths capacity order (fromCall capacity order k).1 (fromCall capacity order k).2 =
      (fromCall capacity order k).1 ::
        fromPaths capacity order (fromCall capacity order (k + 1)).1 (fromCall capacity order (k + 1)).2 := by
  rw [fromPaths, if_neg hne]
  rfl

/-- The stream consists of the levels before the first empty one. -/
theorem pathSets_eq_of_fromCall {k : Nat} (hempty : (fromCall capacity order k).1 = [])
    (hne : ∀ j < k, (fromCall capacity order j).1 ≠ []) :
    pathSets capacity order = (List.range k).map fun j => (fromCall capacity order j).1 := by
  have hrest : ∀ j ≤ k, pathSets capacity order = ((List.range j).map fun i => (fromCall capacity order i).1) ++
      fromPaths capacity order (fromCall capacity order j).1 (fromCall capacity order j).2 := by
    intro j hj
    induction j with
    | zero => rfl
    | succ j ih =>
      rw [ih (Nat.le_of_succ_le hj), fromPaths_fromCall (hne j hj), List.range_succ]
      simp
  rw [hrest k le_rfl, hempty, fromPaths, if_pos rfl, List.append_nil]

/-- The states in which no glass holds more than its capacity, as numbers. -/
def fillStates (capacity : State n) : Finset (Fin n → Nat) :=
  Fintype.piFinset fun glass => Finset.range ((capacity glass).toInt + 1).toNat

theorem card_fillStates (capacity : State n) :
    (fillStates capacity).card = ∏ glass, ((capacity glass).toInt + 1).toNat := by
  simp [fillStates]

/-- Levels that are not empty end in different fill states. -/
theorem le_card_of_levels_nonempty (hcap : ∀ glass, 0 ≤ capacity glass) {k : Nat}
    (hne : ∀ j < k, (fromCall capacity order j).1 ≠ []) : k ≤ (fillStates capacity).card := by
  have hexists : ∀ j, ∃ history, j < k → (system capacity).Geodesic history ∧ history.length = j := by
    intro j
    by_cases hj : j < k
    · obtain ⟨path, hpath⟩ := List.exists_mem_of_ne_nil _ (hne j hj)
      obtain ⟨hgeodesic, hlength, -⟩ := ((level_fromCall j).mem path).mp hpath
      exact ⟨path.history, fun _ => ⟨hgeodesic, hlength⟩⟩
    · exact ⟨[], fun h => absurd h hj⟩
  choose history hhistory using hexists
  have hwithin : ∀ j, WithinCapacity capacity ((system capacity).replay (history j)) :=
    fun j => (attainable_replay hcap (history j)).within
  have hmem : ∀ j ∈ Finset.range k,
      (fun glass => ((system capacity).replay (history j) glass).toInt.toNat) ∈ fillStates capacity := by
    intro j _
    refine Fintype.mem_piFinset.mpr fun glass => Finset.mem_range.mpr ?_
    obtain ⟨hnonneg, hle⟩ := hwithin j glass
    omega
  have hinj : Set.InjOn (fun j => fun glass => ((system capacity).replay (history j) glass).toInt.toNat)
      (Finset.range k : Set Nat) := by
    intro i hi j hj heq
    obtain ⟨hgi, hli⟩ := hhistory i (by simpa using hi)
    obtain ⟨hgj, hlj⟩ := hhistory j (by simpa using hj)
    have hreplay : (system capacity).replay (history i) = (system capacity).replay (history j) := by
      funext glass
      have hnat := congrFun heq glass
      rw [← Int.ofNat_inj, Int.toNat_of_nonneg (hwithin i glass).1, Int.toNat_of_nonneg (hwithin j glass).1] at hnat
      exact Int32.toInt_inj.mp hnat
    have hij := hgi.2 _ hgj.1 hreplay.symm
    have hji := hgj.2 _ hgi.1 hreplay
    omega
  simpa using Finset.card_le_card_of_injOn _ hmem hinj

/-- The search is finite: `from` comes to an empty set of paths after at most
    as many levels as there are fill states, and the stream ends there. A
    target that no state contains has no solution. -/
theorem pathSets_finite (hcap : ∀ glass, 0 ≤ capacity glass) (order : SetOrder (Path n)) :
    ∃ k ≤ ∏ glass, ((capacity glass).toInt + 1).toNat,
      (fromCall capacity order k).1 = [] ∧
      (pathSets capacity order) = ((List.range k).map fun j => (fromCall capacity order j).1) ∧
      ∀ target, (∀ history, (system capacity).Plays history → ∀ glass,
        (system capacity).replay history glass ≠ target) → solution capacity order target = [] := by
  have hex : ∃ k, (fromCall capacity order k).1 = [] := by
    by_contra hall
    have hne := not_exists.mp hall
    have hle := le_card_of_levels_nonempty hcap (fun j (_ : j < (fillStates capacity).card + 1) => hne j)
    omega
  classical
  have hmin : ∀ j < Nat.find hex, (fromCall capacity order j).1 ≠ [] := fun j hj => Nat.find_min hex hj
  refine ⟨Nat.find hex, ?_, Nat.find_spec hex, pathSets_eq_of_fromCall (Nat.find_spec hex) hmin, ?_⟩
  · rw [← card_fillStates]
    exact le_card_of_levels_nonempty hcap hmin
  · intro target hunreachable
    by_contra hne
    obtain ⟨history, hplays, glass, htarget⟩ := (solution_ne_nil_iff target).mp hne
    exact hunreachable history hplays glass htarget

/-- Glasses of 2 and 4 can only hold even amounts; there are 15 fill states. -/
theorem pathSets_finite_of_two_glasses : ∃ k ≤ 15, (fromCall ![2, 4] default k).1 = [] ∧
    (pathSets ![2, 4] default) = ((List.range k).map fun j => (fromCall ![2, 4] default j).1) ∧
    ∀ target, (∀ history, (system ![2, 4]).Plays history → ∀ glass,
      (system ![2, 4]).replay history glass ≠ target) → solution ![2, 4] default target = [] := by
  have hcard : ∏ glass, (((![2, 4] : State 2) glass).toInt + 1).toNat = 15 := by decide
  rw [← hcard]
  exact pathSets_finite (by decide) default

end accelerators.pouring
