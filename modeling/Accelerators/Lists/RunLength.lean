import Mathlib.Data.List.Chain
import Accelerators.Lists

namespace accelerators.lists

variable {T : Type} {p : T × Nat} {code : List (T × Nat)}

def group (p : T × Nat) : List T := List.replicate p.2 p.1

/-- `n` copies of `e` for every pair `(e, n)`. -/
def expand (code : List (T × Nat)) : List T := (code.map group).flatten

/-- No run is empty, and none goes on in the next one. -/
structure MaximalRuns (code : List (T × Nat)) : Prop where
  pos : ∀ p ∈ code, 0 < p.2
  ne : code.IsChain fun p q => p.1 ≠ q.1

theorem MaximalRuns.tail (h : MaximalRuns (p :: code)) : MaximalRuns code :=
  ⟨fun q hq => h.pos q (List.mem_cons_of_mem p hq), h.ne.tail⟩

theorem group_eq_cons (hpos : 0 < p.2) : group p = p.1 :: List.replicate (p.2 - 1) p.1 := by
  rw [group, ← List.replicate_succ, Nat.sub_add_cancel hpos]

theorem expand_cons : expand (p :: code) = group p ++ expand code := rfl

theorem MaximalRuns.head?_expand (h : MaximalRuns (p :: code)) : ∀ y ∈ (expand code).head?, y ≠ p.1 := by
  cases code with
  | nil => simp [expand]
  | cons q code =>
    have hpos : 0 < q.2 := h.pos q (by simp)
    have hne : p.1 ≠ q.1 := (List.isChain_cons_cons.mp h.ne).1
    simpa [expand_cons, group_eq_cons hpos] using hne.symm

variable [DecidableEq T]

theorem pack_cons (x : T) (xs1 : List T) : pack (x :: xs1) =
    (x :: xs1).takeWhile (fun y => y == x) :: pack ((x :: xs1).dropWhile fun y => y == x) := by
  rw [pack]
  split
  next b e h =>
    rw [List.span_eq_takeWhile_dropWhile, Prod.mk.injEq] at h
    rw [h.1, h.2]

/-- `span` splits where the run ends. -/
theorem MaximalRuns.span (h : MaximalRuns (p :: code)) :
    ((expand (p :: code)).takeWhile fun y => y == p.1) = group p ∧
      ((expand (p :: code)).dropWhile fun y => y == p.1) = expand code := by
  have hall : ∀ y ∈ group p, (y == p.1) = true := by simp [group]
  rw [expand_cons, List.takeWhile_append_of_pos hall, List.dropWhile_append_of_pos hall]
  have hnext := h.head?_expand
  cases hrest : expand code with
  | nil => simp
  | cons y rest =>
    have hy : (y == p.1) = false := beq_false_of_ne (hnext y (by simp [hrest]))
    simp [hy]

theorem MaximalRuns.pack_expand (h : MaximalRuns code) : pack (expand code) = code.map group := by
  induction code with
  | nil => simp [expand, pack]
  | cons p code ih =>
    obtain ⟨htake, hdrop⟩ := h.span
    have hcons : expand (p :: code) = p.1 :: (List.replicate (p.2 - 1) p.1 ++ expand code) := by
      rw [expand_cons, group_eq_cons (h.pos p (by simp)), List.cons_append]
    rw [hcons] at htake hdrop
    rw [hcons, pack_cons, htake, hdrop, ih h.tail, List.map_cons]

theorem MaximalRuns.encode_expand (h : MaximalRuns code) : encode (expand code) = some code := by
  rw [encode, h.pack_expand, List.mapM_map]
  induction code with
  | nil => rfl
  | cons p code ih =>
    have hpos : 0 < p.2 := h.pos p (by simp)
    have hhead : (group p).head? = some p.1 := by rw [group_eq_cons hpos, List.head?_cons]
    have hlength : (group p).length = p.2 := List.length_replicate
    rw [List.mapM_cons, ih h.tail]
    simp [hhead, hlength]

theorem exists_maximal (xs : List T) : ∃ code, MaximalRuns code ∧ expand code = xs := by
  induction xs with
  | nil => exact ⟨[], ⟨by simp, .nil⟩, rfl⟩
  | cons x xs ih =>
    obtain ⟨code, hcode, rfl⟩ := ih
    cases code with
    | nil => exact ⟨[(x, 1)], ⟨by simp, .singleton _⟩, by simp [expand, group]⟩
    | cons p code =>
      by_cases hx : x = p.1
      · refine ⟨(p.1, p.2 + 1) :: code, ⟨?_, ?_⟩, ?_⟩
        · intro q hq
          obtain rfl | hq := List.mem_cons.mp hq
          · exact Nat.succ_pos _
          · exact hcode.pos q (List.mem_cons_of_mem p hq)
        · have hne := hcode.ne
          rw [List.isChain_cons] at hne ⊢
          exact hne
        · simp [expand_cons, group, List.replicate_succ, hx]
      · refine ⟨(x, 1) :: p :: code, ⟨?_, ?_⟩, ?_⟩
        · intro q hq
          obtain rfl | hq := List.mem_cons.mp hq
          · exact Nat.one_pos
          · exact hcode.pos q hq
        · exact List.isChain_cons_cons.mpr ⟨hx, hcode.ne⟩
        · simp [expand_cons, group]

/-- The groups are the runs of the list, `encode` never asks an empty one for its
    head, and its result is the only list of runs that expands to the input. -/
theorem encode_maximal (xs : List T) : (pack xs).flatten = xs ∧
    (∀ ys ∈ pack xs, ys ≠ [] ∧ ∀ y ∈ ys, ∀ z ∈ ys, y = z) ∧
    (pack xs).IsChain (fun ys zs => ∀ y ∈ ys, ∀ z ∈ zs, y ≠ z) ∧
    (∃ code, encode xs = some code ∧ MaximalRuns code ∧ expand code = xs ∧
      ∀ code', MaximalRuns code' → expand code' = xs → code' = code) ∧
    ∀ code : List (T × Nat), MaximalRuns code → encode (expand code) = some code := by
  obtain ⟨code, hcode, rfl⟩ := exists_maximal xs
  rw [hcode.pack_expand]
  refine ⟨rfl, ?_, ?_, ⟨code, hcode.encode_expand, hcode, rfl, ?_⟩, fun code h => h.encode_expand⟩
  · intro ys hys
    obtain ⟨p, hp, rfl⟩ := List.mem_map.mp hys
    refine ⟨?_, fun y hy z hz => ?_⟩
    · rw [group_eq_cons (hcode.pos p hp)]
      exact List.cons_ne_nil _ _
    · rw [List.eq_of_mem_replicate hy, List.eq_of_mem_replicate hz]
  · rw [List.isChain_map]
    refine hcode.ne.imp fun p q hne y hy z hz => ?_
    rw [List.eq_of_mem_replicate hy, List.eq_of_mem_replicate hz]
    exact hne
  · intro code' hcode' hexpand
    have hencode := hcode'.encode_expand
    rw [hexpand, hcode.encode_expand] at hencode
    exact (Option.some.inj hencode).symm

end accelerators.lists
