import Mathlib.Data.List.Induction
import Mathlib.Logic.Function.Basic

namespace assignments

/-- `target = compute(sources)`. -/
structure Assignment (L E : Type) where
  target : L
  sources : List L
  compute : (Fin sources.length → E) → E

variable {L E : Type} {m : L → E} {c d : Assignment L E} {list : List (Assignment L E)}

def Assignment.value (c : Assignment L E) (m : L → E) : E := c.compute fun i => m (c.sources.get i)

/-- Neither assignment writes what the other one reads or writes. -/
structure Apart (c d : Assignment L E) : Prop where
  target_ne : c.target ≠ d.target
  not_source : d.target ∉ c.sources
  not_source' : c.target ∉ d.sources

section
variable [DecidableEq L]

/-- One assignment after the other. -/
def sequential (l : List (Assignment L E)) (m : L → E) : L → E :=
  l.foldl (fun m c => Function.update m c.target (c.value m)) m

theorem sequential_append (l l' : List (Assignment L E)) (m : L → E) :
    sequential (l ++ l') m = sequential l' (sequential l m) :=
  List.foldl_append

/-- The stores of assignments, each of the value that it has in `m`. -/
def stores (l : List (Assignment L E)) (m : L → E) : L → E :=
  l.foldl (fun m' c => Function.update m' c.target (c.value m)) m

theorem stores_append_singleton (list : List (Assignment L E)) (c : Assignment L E) (m : L → E) :
    stores (list ++ [c]) m = Function.update (stores list m) c.target (c.value m) := by
  rw [stores, List.foldl_append]
  rfl

theorem stores_of_ne {l : L} (h : ∀ c ∈ list, c.target ≠ l) : stores list m l = m l := by
  induction list using List.reverseRecOn with
  | nil => rfl
  | append_singleton list c ih =>
    rw [stores_append_singleton, Function.update_of_ne (h c (by simp)).symm]
    exact ih fun d hd => h d (List.mem_append_left _ hd)

/-- With distinct targets, every store is seen in the end. -/
theorem stores_of_mem (h : list.Pairwise fun c d => c.target ≠ d.target) (hc : c ∈ list) :
    stores list m c.target = c.value m := by
  induction list using List.reverseRecOn with
  | nil => cases hc
  | append_singleton list d ih =>
    obtain ⟨hlist, -, hlast⟩ := List.pairwise_append.mp h
    rw [stores_append_singleton]
    obtain hold | hnew := List.mem_append.mp hc
    · rw [Function.update_of_ne (hlast c hold d (by simp))]
      exact ih hlist hold
    · obtain rfl := List.mem_singleton.mp hnew
      exact Function.update_self ..

/-- What is stored does not depend on the order. -/
theorem stores_congr {list' : List (Assignment L E)} (h : list.Pairwise fun c d => c.target ≠ d.target)
    (h' : list'.Pairwise fun c d => c.target ≠ d.target) (hsame : ∀ c, c ∈ list ↔ c ∈ list') :
    stores list m = stores list' m := by
  funext l
  by_cases hl : ∃ c ∈ list, c.target = l
  · obtain ⟨c, hc, rfl⟩ := hl
    rw [stores_of_mem h hc, stores_of_mem h' ((hsame c).mp hc)]
  · have hne : ∀ c ∈ list, c.target ≠ l := fun c hc heq => hl ⟨c, hc, heq⟩
    rw [stores_of_ne hne, stores_of_ne fun c hc => hne c ((hsame c).mpr hc)]

/-- An assignment does not see the stores that it is apart from. -/
theorem value_stores (h : ∀ d ∈ list, Apart d c) : c.value (stores list m) = c.value m := by
  apply congrArg c.compute
  funext i
  apply stores_of_ne
  intro d hd heq
  exact (h d hd).not_source' (heq ▸ List.get_mem c.sources i)

theorem sequential_eq_stores (h : list.Pairwise Apart) : sequential list m = stores list m := by
  induction list using List.reverseRecOn with
  | nil => rfl
  | append_singleton list c ih =>
    obtain ⟨hlist, -, hlast⟩ := List.pairwise_append.mp h
    have hvalue := value_stores (m := m) fun d hd => hlast d hd c (List.mem_singleton_self c)
    rw [stores_append_singleton, ← hvalue, ← ih hlist, sequential, List.foldl_append]
    rfl

end

end assignments
