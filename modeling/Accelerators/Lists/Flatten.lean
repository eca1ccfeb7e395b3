import Accelerators.Lists

namespace accelerators.lists

variable {T : Type} {x : Any T} {xs : List (Any T)}

mutual
/-- The values that are no lists, from left to right. -/
def Any.atoms : Any T → List T
  | .atom a => [a]
  | .list ys => atoms ys

def atoms : List (Any T) → List T
  | [] => []
  | y :: ys => y.atoms ++ atoms ys
end

/-- Some value in the list, at any depth. -/
inductive Occurs (x : Any T) : List (Any T) → Prop where
  | here (xs : List (Any T)) (hmem : x ∈ xs) : Occurs x xs
  | inside (xs ys : List (Any T)) (hmem : .list ys ∈ xs) (hoccurs : Occurs x ys) : Occurs x xs

theorem not_occurs_nil : ¬ Occurs x [] := by
  rintro (⟨_, hmem⟩ | ⟨_, ys, hmem, -⟩)
  · exact List.not_mem_nil hmem
  · exact List.not_mem_nil hmem

theorem occurs_atom_cons {a : T} : Occurs x (.atom a :: xs) ↔ x = .atom a ∨ Occurs x xs := by
  constructor
  · rintro (⟨_, hmem⟩ | ⟨_, ys, hmem, hoccurs⟩)
    · exact (List.mem_cons.mp hmem).imp_right (.here xs)
    · exact .inr (.inside xs ys (by simpa using hmem) hoccurs)
  · rintro (rfl | ⟨_, hmem⟩ | ⟨_, ys, hmem, hoccurs⟩)
    · exact .here _ (List.mem_cons_self ..)
    · exact .here _ (List.mem_cons_of_mem _ hmem)
    · exact .inside _ ys (List.mem_cons_of_mem _ hmem) hoccurs

theorem occurs_list_cons {ys : List (Any T)} :
    Occurs x (.list ys :: xs) ↔ x = .list ys ∨ Occurs x ys ∨ Occurs x xs := by
  constructor
  · rintro (⟨_, hmem⟩ | ⟨_, zs, hmem, hoccurs⟩)
    · exact (List.mem_cons.mp hmem).imp_right fun hmem => .inr (.here xs hmem)
    · obtain heq | hmem := List.mem_cons.mp hmem
      · cases heq
        exact .inr (.inl hoccurs)
      · exact .inr (.inr (.inside xs zs hmem hoccurs))
  · rintro (rfl | hoccurs | ⟨_, hmem⟩ | ⟨_, zs, hmem, hoccurs⟩)
    · exact .here _ (List.mem_cons_self ..)
    · exact .inside _ ys (List.mem_cons_self ..) hoccurs
    · exact .here _ (List.mem_cons_of_mem _ hmem)
    · exact .inside _ zs (List.mem_cons_of_mem _ hmem) hoccurs

/-- An empty list is kept like an atom, and nothing else is. -/
theorem list_mem_flatten {ys : List (Any T)} : .list ys ∈ flatten xs ↔ ys = [] ∧ Occurs (.list []) xs := by
  fun_induction flatten xs with
  | case1 => simp [not_occurs_nil]
  | case2 z zs yss ihlist ihrest =>
    rw [List.mem_append, ihlist, ihrest, occurs_list_cons]
    simp [← and_or_left]
  | case3 y yss hcons ih =>
    rw [List.mem_cons, ih]
    cases y with
    | atom a => simp [occurs_atom_cons]
    | list zs =>
      cases zs with
      | nil =>
        rw [occurs_list_cons, Any.list.injEq]
        simp only [true_or, and_true]
        exact or_iff_left_of_imp And.left
      | cons z zs => exact (hcons z zs rfl).elim

theorem atoms_append (xs ys : List (Any T)) : atoms (xs ++ ys) = atoms xs ++ atoms ys := by
  induction xs with
  | nil => simp [atoms]
  | cons x xs ih => simp [atoms, ih]

theorem atoms_flatten : atoms (flatten xs) = atoms xs := by
  fun_induction flatten xs with
  | case1 => rfl
  | case2 z zs yss ihlist ihrest =>
    rw [atoms_append, ihlist, ihrest]
    rfl
  | case3 y yss hcons ih => rw [atoms, atoms, ih]

theorem eq_map_atom (h : ∀ ys, .list ys ∉ xs) : xs = (atoms xs).map .atom := by
  induction xs with
  | nil => rfl
  | cons x xs ih =>
    cases x with
    | atom a =>
      rw [atoms, Any.atoms, List.singleton_append, List.map_cons, ← ih]
      exact fun ys hmem => h ys (List.mem_cons_of_mem _ hmem)
    | list ys => exact (h ys (List.mem_cons_self ..)).elim

/-- Only atoms are left if and only if there was no empty list. -/
theorem flatten_eq_iff : flatten xs = (atoms xs).map .atom ↔ ¬ Occurs (.list []) xs := by
  constructor
  · intro h hoccurs
    have hmem : .list [] ∈ flatten xs := list_mem_flatten.mpr ⟨rfl, hoccurs⟩
    rw [h, List.mem_map] at hmem
    obtain ⟨a, -, ha⟩ := hmem
    cases ha
  · intro hoccurs
    rw [← atoms_flatten]
    exact eq_map_atom fun ys hmem => hoccurs (list_mem_flatten.mp hmem).2

/-- The result is the atoms, in order and with no list among them, exactly for a
    list in which no empty list occurs. -/
theorem flatten_atoms_iff (xs : List (Any T)) :
    (flatten xs = (atoms xs).map .atom ∧ ∀ ys, .list ys ∉ flatten xs) ↔ ¬ Occurs (.list []) xs := by
  refine ⟨fun h => flatten_eq_iff.mp h.1, fun hoccurs => ⟨flatten_eq_iff.mpr hoccurs, fun ys hmem => ?_⟩⟩
  exact hoccurs (list_mem_flatten.mp hmem).2

theorem flatten_keeps_empty : ¬ ∀ xs : List (Any Nat),
    flatten xs = (atoms xs).map .atom ∧ ∀ ys, .list ys ∉ flatten xs := by
  intro h
  obtain ⟨-, hlist⟩ := h [.list []]
  exact hlist [] (list_mem_flatten.mpr ⟨rfl, .here _ (List.mem_singleton.mpr rfl)⟩)

end accelerators.lists
