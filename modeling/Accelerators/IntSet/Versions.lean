import Accelerators.IntSet.Ordered

namespace accelerators.int_set

variable {α : Type} [LinearOrder α] {x : α} {object : Object α} {objects older heap newer : Heap α} {ref : Nat}
  {s : IntSet α}

section
variable (href : ref ≠ older.length)
include href

/-! The newest object concerns nobody who does not refer to it. -/

omit [LinearOrder α] in
theorem tree_cons_of_ne : tree (object :: older) ref = tree older ref := by
  cases object <;> exact if_neg href

theorem contains_cons_of_ne : contains x (object :: older) ref = contains x older ref := by
  cases object <;> exact if_neg href

theorem incl_cons_of_ne : incl x (object :: older) ref heap = incl x older ref heap := by
  cases object <;> exact if_neg href

end

omit [LinearOrder α] in
theorem lt_of_tree (h : tree heap ref = some s) : ref < heap.length := by
  induction heap with
  | nil => cases h
  | cons object older ih =>
    by_cases href : ref = older.length
    · simp [href]
    · rw [tree_cons_of_ne href] at h
      exact (ih h).trans (Nat.lt_succ_self _)

omit [LinearOrder α] in
/-- New objects do not change the old ones. -/
theorem tree_append (newer : Heap α) (h : tree objects ref = some s) : tree (newer ++ objects) ref = some s := by
  induction newer with
  | nil => exact h
  | cons object newer ih =>
    have hlt := lt_of_tree h
    rw [List.cons_append, tree_cons_of_ne (by rw [List.length_append]; omega)]
    exact ih

omit [LinearOrder α] in
theorem empty_or_nonEmpty_of_tree (h : tree (object :: older) older.length = some s) :
    object = .Empty ∧ s = .Empty ∨ ∃ elem left right l r, object = .NonEmpty elem left right ∧
      tree older left = some l ∧ tree older right = some r ∧ s = .NonEmpty elem l r := by
  cases object with
  | Empty =>
    rw [tree, if_pos rfl] at h
    exact .inl ⟨rfl, (Option.some.inj h).symm⟩
  | NonEmpty elem left right =>
    rw [tree, if_pos rfl] at h
    obtain ⟨l, hl, h⟩ := Option.bind_eq_some_iff.mp h
    obtain ⟨r, hr, h⟩ := Option.bind_eq_some_iff.mp h
    exact .inr ⟨elem, left, right, l, r, rfl, hl, hr, (Option.some.inj h).symm⟩

/-- The method on the object computes what the function on its value does. -/
theorem contains_of_tree (h : tree heap ref = some s) : contains x heap ref = some (s.contains x) := by
  induction heap generalizing ref s with
  | nil => cases h
  | cons object older ih =>
    by_cases href : ref = older.length
    · subst href
      obtain ⟨rfl, rfl⟩ | ⟨elem, left, right, l, r, rfl, hl, hr, rfl⟩ := empty_or_nonEmpty_of_tree h
      · exact if_pos rfl
      · rw [contains, if_pos rfl, IntSet.contains]
        split_ifs
        · exact ih hl
        · exact ih hr
        · rfl
    · rw [tree_cons_of_ne href] at h
      rw [contains_cons_of_ne href]
      exact ih h

omit [LinearOrder α] in
/-- A new object has the value that its fields give it. -/
theorem tree_alloc {elem : α} {left right : Nat} {l r : IntSet α} (hl : tree heap left = some l)
    (hr : tree heap right = some r) :
    tree (alloc heap (.NonEmpty elem left right)).1 (alloc heap (.NonEmpty elem left right)).2 =
      some (.NonEmpty elem l r) := by
  simp [alloc, tree, hl, hr]

/-- `incl` only adds objects, and returns one with the value of the larger set. -/
theorem incl_of_tree (x : α) (newer : Heap α) (h : tree objects ref = some s) :
    ∃ newer' ref', incl x objects ref (newer ++ objects) = some (newer' ++ (newer ++ objects), ref') ∧
      tree (newer' ++ (newer ++ objects)) ref' = some (s.incl x) := by
  induction objects generalizing ref s newer with
  | nil => cases h
  | cons object older ih =>
    have hshift : newer ++ object :: older = (newer ++ [object]) ++ older := by simp
    by_cases href : ref = older.length
    · subst href
      obtain ⟨rfl, rfl⟩ | ⟨elem, left, right, l, r, rfl, hl, hr, rfl⟩ := empty_or_nonEmpty_of_tree h
      · refine ⟨[.NonEmpty x _ _, .Empty, .Empty], _, if_pos rfl, ?_⟩
        apply tree_alloc <;> simp [tree]
      · have hl' := tree_append (newer ++ [.NonEmpty elem left right]) hl
        have hr' := tree_append (newer ++ [.NonEmpty elem left right]) hr
        rw [hshift, incl, if_pos rfl, IntSet.incl]
        split_ifs
        · obtain ⟨newer', left', hincl, htree⟩ := ih (newer ++ [.NonEmpty elem left right]) hl
          refine ⟨.NonEmpty elem left' right :: newer', _, by rw [hincl]; rfl, ?_⟩
          exact tree_alloc htree (tree_append newer' hr')
        · obtain ⟨newer', right', hincl, htree⟩ := ih (newer ++ [.NonEmpty elem left right]) hr
          refine ⟨.NonEmpty elem left right' :: newer', _, by rw [hincl]; rfl, ?_⟩
          exact tree_alloc (tree_append newer' hl') htree
        · refine ⟨[], _, rfl, ?_⟩
          rw [← hshift]
          exact tree_append newer h
    · rw [tree_cons_of_ne href] at h
      rw [hshift, incl_cons_of_ne href]
      exact ih (newer ++ [object]) h

theorem inclAll_of_tree (xs : List α) (h : tree heap ref = some s) (hordered : s.Ordered) :
    ∃ newer ref' s', inclAll xs (heap, ref) = some (newer ++ heap, ref') ∧ tree (newer ++ heap) ref' = some s' ∧
      s'.Ordered ∧ ∀ x, x ∈ s'.traversal ↔ x ∈ xs ∨ x ∈ s.traversal := by
  induction xs generalizing heap ref s with
  | nil => exact ⟨[], ref, s, rfl, h, hordered, by simp⟩
  | cons x xs ih =>
    obtain ⟨newer, ref', hincl, htree⟩ := incl_of_tree x [] h
    obtain ⟨newer', ref'', s'', hall, htree', hordered', hmem⟩ := ih htree (hordered.incl x)
    refine ⟨newer' ++ newer, ref'', s'', ?_, ?_, hordered', fun y => ?_⟩
    · rw [List.append_assoc, inclAll]
      simpa [show incl x heap ref heap = _ from hincl] using hall
    · rwa [List.append_assoc]
    · rw [hmem, IntSet.mem_incl, List.mem_cons, or_left_comm, or_assoc]

/-- The set after some insertions into a new `Empty`. -/
theorem inclAll_start (xs : List α) : ∃ heap ref s, inclAll xs start = some (heap, ref) ∧
    tree heap ref = some s ∧
    s.Ordered ∧ ∀ x, x ∈ s.traversal ↔ x ∈ xs := by
  have hempty : tree (start : Heap α × Nat).1 (start : Heap α × Nat).2 = some .Empty := rfl
  obtain ⟨newer, ref, s, hall, htree, hordered, hmem⟩ := inclAll_of_tree xs hempty trivial
  exact ⟨newer ++ start.1, ref, s, hall, htree, hordered, fun x => by simp [hmem, IntSet.traversal]⟩

theorem contains_of_mem_iff {xs : List α} (h : tree heap ref = some s) (hordered : s.Ordered)
    (hmem : ∀ x, x ∈ s.traversal ↔ x ∈ xs) (x : α) : contains x heap ref = some (decide (x ∈ xs)) := by
  rw [contains_of_tree h, Option.some.injEq, Bool.eq_iff_iff, hordered.contains_iff, hmem, decide_eq_true_iff]

/-- A set is what was inserted into it, in order and without repetition, and no
    later insertion is seen by it. -/
theorem incl_versions (xs : List α) : ∃ heap ref s, inclAll xs start = some (heap, ref) ∧
    tree heap ref = some s ∧
    s.traversal.Pairwise (· < ·) ∧ (∀ x, x ∈ s.traversal ↔ x ∈ xs) ∧
    (∀ x, contains x heap ref = some (decide (x ∈ xs))) ∧
    (∀ ys, (∀ x, x ∈ ys ↔ x ∈ xs) → ∃ heap' ref' s', inclAll ys start = some (heap', ref') ∧
      tree heap' ref' = some s' ∧ s'.traversal = s.traversal ∧
        ∀ x, contains x heap' ref' = contains x heap ref) ∧
    ∀ ys, ∃ heap' ref', inclAll ys (heap, ref) = some (heap', ref') ∧ tree heap' ref = some s ∧
      ∀ x, contains x heap' ref = contains x heap ref := by
  obtain ⟨heap, ref, s, hall, htree, hordered, hmem⟩ := inclAll_start xs
  have hcontains := contains_of_mem_iff htree hordered hmem
  refine ⟨heap, ref, s, hall, htree, hordered.pairwise, hmem, hcontains, fun ys hsame => ?_, fun ys => ?_⟩
  · obtain ⟨heap', ref', s', hall', htree', hordered', hmem'⟩ := inclAll_start ys
    refine ⟨heap', ref', s', hall', htree', ?_, fun x => ?_⟩
    · exact hordered'.traversal_eq hordered fun x => by rw [hmem', hmem, hsame]
    · rw [contains_of_mem_iff htree' hordered' hmem', hcontains]
      simp only [hsame]
  · obtain ⟨newer, ref', s', hall', -⟩ := inclAll_of_tree ys htree hordered
    refine ⟨newer ++ heap, ref', hall', tree_append newer htree, fun x => ?_⟩
    rw [contains_of_tree (tree_append newer htree), contains_of_tree htree]

end accelerators.int_set
