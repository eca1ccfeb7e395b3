import Mathlib.Logic.Function.Basic
import Accelerators.TransitionSystem

open transition_system

namespace interleaving

/-- What a thread still has to do: its calls, the first of which is in
    progress, and how far that one has come. -/
structure Thread (C P : Type) where
  calls : List C
  phase : P

/-- Threads on a shared memory. The history lists the calls that are over, with
    the phase that each of them ended in. -/
structure Config (T C P M : Type) where
  memory : M
  threads : T → Thread C P
  history : List (T × C × P)

/-- The code of the calls: the phase in which a call begins, those in which it
    is over, and the atomic actions of a thread inside a call. -/
structure Code (T C P M : Type) where
  entry : P
  Over : P → Prop
  Acts : T → C → M → P → M → P → Prop

variable {T C P M : Type} [DecidableEq T] {code : Code T C P M}

namespace Code

/-- One action of one thread. The next call begins where the last one is over. -/
inductive Step (code : Code T C P M) : Config T C P M → Config T C P M → Prop where
  | inside {s : Config T C P M} {t : T} {c : C} {rest : List C} {p p' : P} {m' : M}
      (hthread : s.threads t = ⟨c :: rest, p⟩) (hacts : code.Acts t c s.memory p m' p')
      (hover : ¬ code.Over p') :
      Step code s ⟨m', Function.update s.threads t ⟨c :: rest, p'⟩, s.history⟩
  | leave {s : Config T C P M} {t : T} {c : C} {rest : List C} {p p' : P} {m' : M}
      (hthread : s.threads t = ⟨c :: rest, p⟩) (hacts : code.Acts t c s.memory p m' p')
      (hover : code.Over p') :
      Step code s ⟨m', Function.update s.threads t ⟨rest, code.entry⟩, s.history ++ [(t, c, p')]⟩

theorem exists_step {s : Config T C P M} {t : T} {c : C} {rest : List C} {p p' : P} {m' : M}
    (hthread : s.threads t = ⟨c :: rest, p⟩) (hacts : code.Acts t c s.memory p m' p') : ∃ s', code.Step s s' := by
  by_cases hover : code.Over p'
  · exact ⟨_, .leave hthread hacts hover⟩
  · exact ⟨_, .inside hthread hacts hover⟩

/-- The same code, where a thread acts only if it may. -/
def restrict (code : Code T C P M) (May : T → C → M → Prop) : Code T C P M :=
  { code with Acts := fun t c m p m' p' => May t c m ∧ code.Acts t c m p m' p' }

def start (code : Code T C P M) (program : T → List C) (m : M) : Config T C P M :=
  ⟨m, fun t => ⟨program t, code.entry⟩, []⟩

def Reachable (code : Code T C P M) (program : T → List C) (m : M) (s : Config T C P M) : Prop :=
  ∃ k, Run code.Step k (code.start program m) s

/-- What holds at the start and is kept by every action in a reachable state
    holds in every reachable state. -/
theorem Reachable.invariant {program : T → List C} {m : M} {s : Config T C P M}
    (h : code.Reachable program m s) (Inv : Config T C P M → Prop) (hstart : Inv (code.start program m))
    (hstep : ∀ s s', code.Reachable program m s → Inv s → code.Step s s' → Inv s') : Inv s := by
  obtain ⟨k, hrun⟩ := h
  generalize hfirst : code.start program m = first at hrun
  induction hrun with
  | refl => exact hfirst ▸ hstart
  | tail hrun hlast ih => exact hstep _ _ ⟨_, hfirst ▸ hrun⟩ (ih hfirst) hlast

theorem Reachable.run {program : T → List C} {m : M} {s s' : Config T C P M} {k : Nat}
    (h : code.Reachable program m s) (hrun : Run code.Step k s s') : code.Reachable program m s' := by
  induction hrun with
  | refl => exact h
  | tail hrun hlast ih =>
    obtain ⟨j, hj⟩ := ih h
    exact ⟨j + 1, hj.tail hlast⟩

/-- One turn of one thread, without the history. -/
structure Turn (code : Code T C P M) (s s' : Config T C P M) (t : T) (c : C) (rest : List C) (p p' : P) : Prop where
  thread : s.threads t = ⟨c :: rest, p⟩
  acts : code.Acts t c s.memory p s'.memory p'
  others : ∀ u, u ≠ t → s'.threads u = s.threads u
  after : ¬ code.Over p' ∧ s'.threads t = ⟨c :: rest, p'⟩ ∨
    code.Over p' ∧ s'.threads t = ⟨rest, code.entry⟩

theorem Step.turn {s s' : Config T C P M} (h : code.Step s s') : ∃ t c rest p p', code.Turn s s' t c rest p p' := by
  cases h with
  | @inside t c rest p p' m' hthread hacts hover =>
    exact ⟨t, c, rest, p, p', hthread, hacts, fun u hne => Function.update_of_ne hne _ _,
      .inl ⟨hover, Function.update_self ..⟩⟩
  | @leave t c rest p p' m' hthread hacts hover =>
    exact ⟨t, c, rest, p, p', hthread, hacts, fun u hne => Function.update_of_ne hne _ _,
      .inr ⟨hover, Function.update_self ..⟩⟩

omit [DecidableEq T] in
/-- A thread is in the middle of a call after its turn only if the turn leads there. -/
theorem Turn.eq_of_thread {s s' : Config T C P M} {t : T} {c c' : C} {rest rest' : List C} {p p' q : P}
    (h : code.Turn s s' t c rest p p') (hthread : s'.threads t = ⟨c' :: rest', q⟩) (hq : q ≠ code.entry) :
    c' = c ∧ rest' = rest ∧ q = p' := by
  obtain ⟨-, hafter⟩ | ⟨-, hafter⟩ := h.after
  · rw [hafter, Thread.mk.injEq, List.cons.injEq] at hthread
    exact ⟨hthread.1.1.symm, hthread.1.2.symm, hthread.2.symm⟩
  · rw [hafter, Thread.mk.injEq] at hthread
    exact absurd hthread.2.symm hq

/-- What is true of a thread when a call begins, is kept by its own turns, and is
    not disturbed by those of others, is true in every reachable state. -/
theorem Reachable.locally {program : T → List C} {m : M} {s : Config T C P M} (h : code.Reachable program m s)
    (At : T → C → P → M → Prop) (hentry : ∀ t c m, At t c code.entry m)
    (hown : ∀ s s' t c rest p p', code.Reachable program m s → code.Turn s s' t c rest p p' →
      At t c p s.memory → At t c p' s'.memory)
    (hothers : ∀ s s' t c rest p p', code.Turn s s' t c rest p p' → ∀ u c' q, u ≠ t →
      At u c' q s.memory → At u c' q s'.memory) :
    ∀ t c rest p, s.threads t = ⟨c :: rest, p⟩ → At t c p s.memory := by
  classical
  refine h.invariant (fun s => ∀ t c rest p, s.threads t = ⟨c :: rest, p⟩ → At t c p s.memory) ?_ ?_
  · intro t c rest p hthread
    obtain rfl : code.entry = p := (Thread.mk.inj hthread).2
    exact hentry t c _
  · intro s s' hreachable ih hstep u c' rest' q hthread
    obtain ⟨t, c, rest, p, p', hturn⟩ := hstep.turn
    by_cases hut : u = t
    · subst hut
      by_cases hq : q = code.entry
      · exact hq ▸ hentry u c' _
      · obtain ⟨rfl, rfl, rfl⟩ := hturn.eq_of_thread hthread hq
        exact hown s s' u c' rest' p q hreachable hturn (ih u c' rest' p hturn.thread)
    · have hthread' := (hturn.others u hut).symm.trans hthread
      exact hothers s s' t c rest p p' hturn u c' q hut (ih u c' rest' q hthread')

/-- No thread waits in a phase in which its call is over. -/
theorem Reachable.not_over {program : T → List C} {m : M} {s : Config T C P M} (h : code.Reachable program m s)
    (hentry : ¬ code.Over code.entry) : ∀ t, ¬ code.Over (s.threads t).phase := by
  refine h.invariant (fun s => ∀ t, ¬ code.Over (s.threads t).phase) (fun t => hentry) ?_
  rintro s s' - ih hstep u
  obtain ⟨t, c, rest, p, p', hturn⟩ := hstep.turn
  by_cases hut : u = t
  · subst hut
    obtain ⟨hover, hafter⟩ | ⟨-, hafter⟩ := hturn.after
    · rwa [hafter]
    · rwa [hafter]
  · rw [hturn.others u hut]
    exact ih u

theorem Reachable.history_over {program : T → List C} {m : M} {s : Config T C P M}
    (h : code.Reachable program m s) : ∀ e ∈ s.history, code.Over e.2.2 := by
  refine h.invariant (fun s => ∀ e ∈ s.history, code.Over e.2.2) (by simp [start]) ?_
  rintro s s' - ih hstep e he
  cases hstep with
  | inside hthread hacts hover => exact ih e he
  | leave hthread hacts hover =>
    obtain hold | hnew := List.mem_append.mp he
    · exact ih e hold
    · obtain rfl := List.mem_singleton.mp hnew
      exact hover

end Code

end interleaving
