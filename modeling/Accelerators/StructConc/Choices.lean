import Mathlib.Algebra.Ring.Int.Defs
import Accelerators.Interleaving.Assignments
import Accelerators.StructConc

open assignments interleaving reduction_tree transition_system

namespace accelerators.struct_conc

theorem loop_eq_range' {b e : Nat} (hle : b ≤ e) : loop b e hle = List.range' b (e - b) := by
  fun_induction loop b e hle with
  | case1 b hle h ih =>
    have hsucc : e - b = e - (b + 1) + 1 := by omega
    rw [ih, hsucc, List.range'_succ]
  | case2 b hle h =>
    have hzero : e - b = 0 := by omega
    rw [hzero]
    rfl

theorem mem_loop {b e i : Nat} (hle : b ≤ e) : i ∈ loop b e hle ↔ b ≤ i ∧ i < e := by
  rw [loop_eq_range' hle, List.mem_range'_1]
  omega

theorem loop_append {b m e : Nat} (hleft : b ≤ m) (hright : m ≤ e) :
    loop b m hleft ++ loop m e hright = loop b e (Nat.le_trans hleft hright) := by
  have hm : m = b + (m - b) := by omega
  have he : e - b = m - b + (e - m) := by omega
  rw [loop_eq_range', loop_eq_range', loop_eq_range', he, ← List.range'_append_1, ← hm]

section
variable {E : Type} {f : E → E → E → E} {a : E} {n : Nat} {T : Type}

theorem saxpyAt_apart {i j : Nat} (h : i ≠ j) : Apart (saxpyAt f a i) (saxpyAt f a j) where
  target_ne := fun heq => h (Cell.y.inj heq)
  not_source := by simp [saxpyAt, Ne.symm h]
  not_source' := by simp [saxpyAt, h]

theorem range_pairwise : ((List.range n).map (saxpyAt f a)).Pairwise Apart := by
  rw [List.pairwise_map]
  apply List.pairwise_lt_range.imp
  intro i j hlt
  exact saxpyAt_apart hlt.ne

theorem saxpy_serial_eq (memory : Cell → E) :
    saxpy_serial f a n memory = sequential ((List.range n).map (saxpyAt f a)) memory := by
  rw [sequential, List.foldl_map]
  rfl

theorem mem_saxpy_tbb {blocks : Blocks n T} {t : T} {c : Assignment Cell E} :
    c ∈ saxpy_tbb f a blocks t ↔ ∃ i ∈ blocks.block t, c = saxpyAt f a i := by
  rw [saxpy_tbb, List.mem_map]
  constructor
  · rintro ⟨i, hi, rfl⟩
    exact ⟨i, (mem_loop _).mp hi, rfl⟩
  · rintro ⟨i, hi, rfl⟩
    exact ⟨i, (mem_loop _).mpr hi, rfl⟩

/-- Disjoint blocks update different elements. -/
theorem saxpy_tbb_apart (blocks : Blocks n T) : AllApart (saxpy_tbb f a blocks) where
  own := by
    intro t
    rw [saxpy_tbb, loop_eq_range', List.pairwise_map]
    apply (List.pairwise_lt_range' 1 Nat.one_pos).imp
    intro i j hlt
    exact saxpyAt_apart hlt.ne
  others := by
    intro t u hne c hc d hd
    obtain ⟨i, hi, rfl⟩ := mem_saxpy_tbb.mp hc
    obtain ⟨j, hj, rfl⟩ := mem_saxpy_tbb.mp hd
    apply saxpyAt_apart
    intro heq
    apply hne
    exact blocks.disjoint t u i hi (heq ▸ hj)

/-- Blocks that cover the range update the elements that the loop updates. -/
theorem mem_range_iff (blocks : Blocks n T) (c : Assignment Cell E) :
    c ∈ (List.range n).map (saxpyAt f a) ↔ ∃ t, c ∈ saxpy_tbb f a blocks t := by
  rw [List.mem_map]
  constructor
  · rintro ⟨i, hi, rfl⟩
    obtain ⟨t, ht⟩ := (blocks.cover i).mp (List.mem_range.mp hi)
    exact ⟨t, mem_saxpy_tbb.mpr ⟨i, ht, rfl⟩⟩
  · rintro ⟨t, hc⟩
    obtain ⟨i, hi, rfl⟩ := mem_saxpy_tbb.mp hc
    exact ⟨i, List.mem_range.mpr ((blocks.cover i).mpr ⟨t, hi⟩), rfl⟩

theorem saxpy_serial_x (memory : Cell → E) (i : Nat) : saxpy_serial f a n memory (.x i) = memory (.x i) := by
  rw [saxpy_serial_eq, sequential_eq_stores range_pairwise]
  apply stores_of_ne
  intro c hc
  obtain ⟨j, -, rfl⟩ := List.mem_map.mp hc
  simp [saxpyAt]

end

section
variable {F R : Type} {op1 : R → R → R} {op2 : F → F → R} {u v : Nat → F} {identity : R}

/-- A sum can be gone on with, or started anew and added. -/
theorem inner_product_serial (hassoc : ∀ r s t, op1 (op1 r s) t = op1 r (op1 s t))
    (hidentity : ∀ r, op1 r identity = r) : Serial (inner_product op1 op2 u v) identity op1 where
  resume := by
    intro b m e hleft hright r
    rw [inner_product, inner_product, inner_product, ← List.foldl_append, loop_append]
  join := by
    intro b e hle r
    have hassociative : Std.Associative op1 := ⟨hassoc⟩
    have hfold : ∀ l : List R, op1 r (l.foldl op1 identity) = l.foldl op1 (op1 r identity) :=
      fun l => List.foldl_assoc.symm
    have hmap : ∀ s, inner_product op1 op2 u v b e hle s =
        ((loop b e hle).map fun i => op2 (u i) (v i)).foldl op1 s := fun s => List.foldl_map.symm
    rw [hmap, hmap, hfold, hidentity]

theorem inner_product_eq (n : Nat) (hle : 0 ≤ n) :
    inner_product op1 op2 u v 0 n hle identity =
      (List.range n).foldl (fun acc i => op1 acc (op2 (u i) (v i))) identity := by
  rw [inner_product, loop_eq_range', List.range_eq_range', Nat.sub_zero]

theorem reduce_inner_product [AddMonoid R] {n : Nat} (plan : Plan 0 n) :
    plan.reduce (inner_product (· + ·) op2 u v) 0 (· + ·) =
      (List.range n).foldl (fun acc i => acc + op2 (u i) (v i)) 0 := by
  rw [Plan.reduce, plan.run_eq (inner_product_serial add_assoc add_zero), inner_product_eq]

end

/-- Whatever blocks are made, and in whatever order they are updated, `saxpy_tbb`
    does what `saxpy_serial` does. Whatever tree the range is reduced in, both inner
    products are the one from left to right. -/
theorem choices_do_not_matter {n : Nat} :
    (∀ {E T : Type} [DecidableEq T] [Fintype T] (f : E → E → E → E) (a : E) (blocks : Blocks n T)
      (memory : Cell → E) (s : Config T (Assignment Cell E) (Phase E) (Cell → E)),
      (code T Cell E).Reachable (saxpy_tbb f a blocks) memory s →
      (∃ k s', Run (code T Cell E).Step k s s' ∧ Done s') ∧
      (Done s → (∀ i, s.memory (.y i) = saxpy_serial f a n memory (.y i)) ∧
        ∀ i, s.memory (.x i) = memory (.x i))) ∧
    (∀ {F R : Type} [AddMonoid F] [Mul F] [AddMonoid R] [Mul R] (double : F → R)
      (u v : Nat → F) (plan : Plan 0 n),
      tbb_sprod u v plan = (List.range n).foldl (fun acc i => acc + u i * v i) 0 ∧
      tbb_sprod2 double u v plan = (List.range n).foldl (fun acc i => acc + double (u i) * double (v i)) 0) := by
  refine ⟨?_, ?_⟩
  · intro E T _ _ f a blocks memory s h
    have hapart : AllApart (saxpy_tbb f a blocks) := saxpy_tbb_apart blocks
    refine ⟨exists_done hapart h, fun hdone => ?_⟩
    have hmemory := memory_eq_sequential hapart h hdone range_pairwise (mem_range_iff blocks)
    rw [hmemory, ← saxpy_serial_eq]
    exact ⟨fun _ => rfl, saxpy_serial_x memory⟩
  · intro F R _ _ _ _ double u v plan
    exact ⟨reduce_inner_product plan, reduce_inner_product plan⟩

/-- Two blocks of the range from `0` to `3`. -/
def twoBlocks : Blocks 3 Bool where
  block t := if t then ⟨1, 3, by decide⟩ else ⟨0, 1, by decide⟩
  cover := by
    intro i
    simp only [Membership.mem, Bool.exists_bool, Bool.false_eq_true, if_true, if_false]
    omega
  disjoint := by
    rintro (_ | _) (_ | _) i hi hj
    all_goals simp only [Membership.mem, Bool.false_eq_true, if_true, if_false] at hi hj
    all_goals first | rfl | omega

/-- Each of the two sums of products has its own body. -/
theorem choices_of_two_blocks :
    (∃ s : Config Bool (Assignment Cell Int) (Phase Int) (Cell → Int),
      (code Bool Cell Int).Reachable (saxpy_tbb (fun a x y => a * x + y) 2 twoBlocks) (fun _ => 1) s ∧ Done s ∧
      s.memory (.y 2) = 3) ∧
    tbb_sprod (fun i => (i : Int)) (fun _ => 1) (.join (.range (Nat.zero_le 1))
      (.range (by decide : 1 ≤ 3))) = 3 := by
  have hstart : (code Bool Cell Int).Reachable (saxpy_tbb (fun a x y => a * x + y) 2 twoBlocks) (fun _ => 1)
      ((code Bool Cell Int).start (saxpy_tbb (fun a x y => a * x + y) 2 twoBlocks) fun _ => 1) := ⟨0, .refl _⟩
  obtain ⟨hsaxpy, hproducts⟩ := @choices_do_not_matter 3
  obtain ⟨⟨k, s, hrun, hdone⟩, -⟩ := hsaxpy _ _ _ _ _ hstart
  obtain ⟨-, hmemory⟩ := hsaxpy _ _ _ _ _ (hstart.run hrun)
  refine ⟨⟨s, hstart.run hrun, hdone, ?_⟩, ?_⟩
  · rw [(hmemory hdone).1]
    rfl
  · exact (hproducts (fun i : Int => i) _ _ _).1

end accelerators.struct_conc
