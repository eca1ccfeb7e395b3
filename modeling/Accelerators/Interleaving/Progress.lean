import Mathlib.Algebra.BigOperators.Group.Finset.Piecewise
import Mathlib.Algebra.Order.BigOperators.Group.Finset
import Accelerators.Interleaving

open transition_system

namespace interleaving.Code

variable {T C P M : Type} [DecidableEq T] {code : Code T C P M} {program : T → List C} {m : M}
  {s s' : Config T C P M} {t : T}

theorem Reachable.tail (h : code.Reachable program m s) (hstep : code.Step s s') : code.Reachable program m s' :=
  h.run ((Run.refl s).tail hstep)

/-- The calls of a thread that are over. -/
def done (s : Config T C P M) (t : T) : List C := (s.history.filter fun e => e.1 = t).map fun e => e.2.1

/-- What a thread has done and what it has still to do is its program. -/
theorem Reachable.done_append_calls (h : code.Reachable program m s) (t : T) :
    done s t ++ (s.threads t).calls = program t := by
  refine h.invariant (fun s => ∀ t, done s t ++ (s.threads t).calls = program t) (fun t => rfl) ?_ t
  rintro s s' - ih hstep u
  cases hstep with
  | @inside t c rest p p' m' hthread hacts hover =>
    obtain rfl | hne := eq_or_ne u t
    · rw [← ih u]
      simp [done, hthread]
    · rw [← ih u]
      simp [done, hne]
  | @leave t c rest p p' m' hthread hacts hover =>
    obtain rfl | hne := eq_or_ne u t
    · rw [← ih u]
      simp [done, hthread]
    · rw [← ih u]
      simp [done, hne, hne.symm]

variable [Fintype T]

theorem countP_history (history : List (T × C × P)) (f : C → Bool) :
    history.countP (fun e => f e.2.1) =
      ∑ t, ((history.filter fun e => e.1 = t).map fun e => e.2.1).countP f := by
  induction history with
  | nil => simp
  | cons e history ih =>
    have hcons : ∀ t, (((e :: history).filter fun e => e.1 = t).map fun e => e.2.1).countP f =
        ((history.filter fun e => e.1 = t).map fun e => e.2.1).countP f +
          if e.1 = t then (if f e.2.1 then 1 else 0) else 0 := by
      intro t
      by_cases het : e.1 = t <;> simp [het, List.countP_cons]
    rw [List.countP_cons, ih, Finset.sum_congr rfl fun t _ => hcons t, Finset.sum_add_distrib, Finset.sum_ite_eq]
    simp

omit [DecidableEq T] in
/-- A turn that lowers the rank of its thread and raises no other lowers their sum. -/
theorem Turn.sum_rank_lt {c : C} {rest : List C} {p p' : P} (h : code.Turn s s' t c rest p p')
    (rank : M → T → Thread C P → Nat) (hown : rank s'.memory t (s'.threads t) < rank s.memory t (s.threads t))
    (hothers : ∀ u, u ≠ t → rank s'.memory u (s.threads u) ≤ rank s.memory u (s.threads u)) :
    ∑ u, rank s'.memory u (s'.threads u) < ∑ u, rank s.memory u (s.threads u) := by
  refine Finset.sum_lt_sum (fun u _ => ?_) ⟨t, Finset.mem_univ t, hown⟩
  obtain rfl | hne := eq_or_ne u t
  · exact hown.le
  · rw [h.others u hne]
    exact hothers u hne

/-- How far a thread is from its end, at most, when every action of a call lowers
    the rank of its phase. -/
def callsRank (rank : P → Nat) (entry : P) (thread : Thread C P) : Nat :=
  match thread.calls with
  | [] => 0
  | _ :: rest => rank entry * rest.length + rank thread.phase

theorem callsRank_entry (rank : P → Nat) (entry : P) (calls : List C) :
    callsRank rank entry ⟨calls, entry⟩ = rank entry * calls.length := by
  cases calls <;> rfl

omit [DecidableEq T] [Fintype T] in
theorem Turn.callsRank_lt {c : C} {rest : List C} {p p' : P} (h : code.Turn s s' t c rest p p') {rank : P → Nat}
    (hrank : rank p' < rank p) :
    callsRank rank code.entry (s'.threads t) < callsRank rank code.entry (s.threads t) := by
  rw [h.thread]
  obtain ⟨-, hafter⟩ | ⟨-, hafter⟩ := h.after
  · rw [hafter]
    exact Nat.add_lt_add_left hrank _
  · rw [hafter, callsRank_entry]
    exact Nat.lt_add_of_pos_right (Nat.zero_lt_of_lt hrank)

/-- Calls without loops come to an end, however they are interleaved. -/
theorem length_le_of_rank {rank : P → Nat} (hrank : ∀ {t c m p m' p'}, code.Acts t c m p m' p' → rank p' < rank p)
    {k : Nat} (hrun : Run code.Step k (code.start program m) s) :
    k ≤ ∑ t, rank code.entry * (program t).length := by
  have hdecreases : ∀ s s' : Config T C P M, code.Step s s' →
      ∑ t, callsRank rank code.entry (s'.threads t) < ∑ t, callsRank rank code.entry (s.threads t) := by
    intro s s' hstep
    obtain ⟨t, c, rest, p, p', hturn⟩ := hstep.turn
    exact hturn.sum_rank_lt (fun _ _ => callsRank rank code.entry) (hturn.callsRank_lt (hrank hturn.acts))
      fun u _ => Nat.le_refl _
  have hle := hrun.length_le hdecreases
  simp only [start, callsRank_entry] at hle
  omega

end interleaving.Code
