import Mathlib.Algebra.Order.BigOperators.Group.Finset
import Mathlib.Data.Fintype.Basic
import Accelerators.Assignments
import Accelerators.Interleaving

open interleaving transition_system

namespace assignments

variable {T L E : Type} {program : T → List (Assignment L E)} {m : L → E} {c : Assignment L E}
  {list : List (Assignment L E)}

/-- How far an assignment has come: the sources are loaded one after the other. -/
inductive Phase (E : Type) where
  | loaded (values : List E)
  | stored

/-- All assignments of all threads are apart from each other. -/
structure AllApart (program : T → List (Assignment L E)) : Prop where
  own : ∀ t, (program t).Pairwise Apart
  others : ∀ t u, t ≠ u → ∀ c ∈ program t, ∀ d ∈ program u, Apart c d

theorem mem_of_mem_history [DecidableEq T] {history : List (T × Assignment L E × Phase E)}
    {e : T × Assignment L E × Phase E} (he : e ∈ history) :
    e.2.1 ∈ (history.filter fun e' => e'.1 = e.1).map fun e => e.2.1 :=
  List.mem_map_of_mem (List.mem_filter.mpr ⟨he, decide_eq_true rfl⟩)

/-- Whatever the order between the threads, the assignments of a history are apart. -/
theorem pairwise_apart [DecidableEq T] (hapart : AllApart program) {history : List (T × Assignment L E × Phase E)}
    (h : ∀ t, (history.filter fun e => e.1 = t).map (fun e => e.2.1) <+: program t) :
    (history.map fun e => e.2.1).Pairwise Apart := by
  induction history using List.reverseRecOn with
  | nil => exact List.Pairwise.nil
  | append_singleton history e ih =>
    have hpre : ∀ t, (history.filter fun e => e.1 = t).map (fun e => e.2.1) <+: program t := by
      intro t
      apply List.IsPrefix.trans _ (h t)
      rw [List.filter_append, List.map_append]
      exact List.prefix_append _ _
    have hlast : e.2.1 ∈ program e.1 := (h e.1).subset (by simp)
    rw [List.map_append, List.map_singleton, List.pairwise_append]
    refine ⟨ih hpre, List.pairwise_singleton _ _, fun d hd d' hd' => ?_⟩
    obtain rfl := List.mem_singleton.mp hd'
    obtain ⟨e', he', rfl⟩ := List.mem_map.mp hd
    have hmem := mem_of_mem_history he'
    by_cases hthread : e'.1 = e.1
    · have hown := (hapart.own e.1).sublist (h e.1).sublist
      rw [List.filter_append, List.map_append, List.pairwise_append] at hown
      exact hown.2.2 _ (hthread ▸ hmem) _ (by simp)
    · exact hapart.others _ _ hthread _ ((hpre e'.1).subset hmem) _ hlast

theorem filter_eq_singleton [DecidableEq L] {α : Type} {f : α → L} {a : α} {history : List α}
    (h : history.Pairwise fun b c => f b ≠ f c) (ha : a ∈ history) : history.filter (fun b => f b = f a) = [a] := by
  induction history with
  | nil => cases ha
  | cons b history ih =>
    obtain ⟨hb, hhistory⟩ := List.pairwise_cons.mp h
    obtain rfl | hmem := List.mem_cons.mp ha
    · have hnil : history.filter (fun b => f b = f a) = [] := by
        rw [List.filter_eq_nil_iff]
        intro c hc heq
        exact hb c hc (of_decide_eq_true heq).symm
      rw [List.filter_cons_of_pos (by simp), hnil]
    · have hne : f b ≠ f a := hb a hmem
      rw [List.filter_cons_of_neg (by simpa using hne), ih hhistory hmem]

variable [DecidableEq L]

/-- The atomic actions: a load of the next source, or the store. -/
inductive Acts (T : Type) : T → Assignment L E → (L → E) → Phase E → (L → E) → Phase E → Prop where
  | load {t : T} {c : Assignment L E} {m : L → E} {values : List E} {l : L}
      (hnext : c.sources[values.length]? = some l) :
      Acts T t c m (.loaded values) m (.loaded (values ++ [m l]))
  | store {t : T} {c : Assignment L E} {m : L → E} {values : List E} (hall : values.length = c.sources.length) :
      Acts T t c m (.loaded values)
        (Function.update m c.target (c.compute fun i => values.get (i.cast hall.symm))) .stored

/-- Threads that run assignments on a shared memory. -/
def code (T L E : Type) [DecidableEq L] : Code T (Assignment L E) (Phase E) (L → E) where
  entry := .loaded []
  Over p := p = .stored
  Acts := Acts T

variable [DecidableEq T] {s s' : Config T (Assignment L E) (Phase E) (L → E)}

/-- The assignments that a thread has finished and those it still has to do are its
    program. The memory has the stores of the former, and what is loaded for the
    latter is as it was at the start. -/
structure Inv (program : T → List (Assignment L E)) (m : L → E)
    (s : Config T (Assignment L E) (Phase E) (L → E)) : Prop where
  split : ∀ t, (s.history.filter fun e => e.1 = t).map (fun e => e.2.1) ++ (s.threads t).calls = program t
  memory : s.memory = stores (s.history.map fun e => e.2.1) m
  loads : ∀ t c rest p, s.threads t = ⟨c :: rest, p⟩ →
    ∃ values, p = .loaded values ∧ values = (c.sources.take values.length).map m

theorem Inv.history_apart (h : Inv program m s) (hapart : AllApart program) :
    (s.history.map fun e => e.2.1).Pairwise Apart :=
  pairwise_apart hapart fun t => h.split t ▸ List.prefix_append _ _

/-- The assignments that are over are apart from the next one of any thread. -/
theorem Inv.apart (h : Inv program m s) (hapart : AllApart program) {t : T} {rest : List (Assignment L E)}
    {p : Phase E} (hthread : s.threads t = ⟨c :: rest, p⟩) :
    ∀ d ∈ s.history.map (fun e => e.2.1), Apart d c := by
  have hpre : ∀ u, ((s.history ++ [(t, c, p)]).filter fun e => e.1 = u).map (fun e => e.2.1) <+: program u := by
    intro u
    rw [← h.split u, List.filter_append, List.map_append]
    obtain rfl | hne := eq_or_ne t u
    · exact ⟨rest, by simp [hthread]⟩
    · simp [hne]
  have hpairwise := pairwise_apart hapart hpre
  rw [List.map_append, List.pairwise_append] at hpairwise
  exact fun d hd => hpairwise.2.2 d hd c (List.mem_singleton_self c)

theorem Inv.start (program : T → List (Assignment L E)) (m : L → E) :
    Inv program m ((code T L E).start program m) where
  split := fun _ => rfl
  memory := rfl
  loads := by
    intro t c rest p hthread
    obtain rfl : Phase.loaded [] = p := (Thread.mk.inj hthread).2
    exact ⟨[], rfl, rfl⟩

theorem Inv.load (h : Inv program m s) (hapart : AllApart program) {t : T} {rest : List (Assignment L E)}
    {values : List E} {l : L} (hthread : s.threads t = ⟨c :: rest, .loaded values⟩)
    (hnext : c.sources[values.length]? = some l) :
    Inv program m ⟨s.memory,
      Function.update s.threads t ⟨c :: rest, .loaded (values ++ [s.memory l])⟩, s.history⟩ where
  split := by
    intro u
    dsimp only
    obtain rfl | hne := eq_or_ne u t
    · rw [Function.update_self, ← h.split u, hthread]
    · rw [Function.update_of_ne hne, h.split u]
  memory := h.memory
  loads := by
    intro u c' rest' p hu
    dsimp only at hu
    obtain rfl | hne := eq_or_ne u t
    · rw [Function.update_self, Thread.mk.injEq, List.cons.injEq] at hu
      obtain ⟨⟨rfl, -⟩, rfl⟩ := hu
      obtain ⟨values', hvalues', htake⟩ := h.loads u c rest _ hthread
      obtain rfl := Phase.loaded.inj hvalues'
      -- nothing that is over has written the source
      have hmemory : s.memory l = m l := by
        rw [h.memory]
        apply stores_of_ne
        intro d hd heq
        exact (h.apart hapart hthread d hd).not_source' (heq ▸ List.mem_of_getElem? hnext)
      refine ⟨_, rfl, ?_⟩
      rw [List.length_append, List.length_singleton, List.take_add_one, hnext, List.map_append, ← htake, hmemory]
      rfl
    · rw [Function.update_of_ne hne] at hu
      exact h.loads u c' rest' p hu

theorem Inv.store (h : Inv program m s) {t : T} {rest : List (Assignment L E)} {values : List E}
    (hthread : s.threads t = ⟨c :: rest, .loaded values⟩) (hall : values.length = c.sources.length) :
    Inv program m ⟨Function.update s.memory c.target (c.compute fun i => values.get (i.cast hall.symm)),
      Function.update s.threads t ⟨rest, .loaded []⟩, s.history ++ [(t, c, .stored)]⟩ where
  split := by
    intro u
    dsimp only
    obtain rfl | hne := eq_or_ne u t
    · rw [Function.update_self, ← h.split u, hthread]
      simp
    · rw [Function.update_of_ne hne, ← h.split u]
      simp [hne.symm]
  memory := by
    obtain ⟨values', hvalues', htake⟩ := h.loads t c rest _ hthread
    obtain rfl := Phase.loaded.inj hvalues'
    rw [hall, List.take_length] at htake
    have hvalue : (c.compute fun i => values.get (i.cast hall.symm)) = c.value m := by
      subst htake
      simp [Assignment.value]
    rw [List.map_append, List.map_singleton, stores_append_singleton, hvalue, h.memory]
  loads := by
    intro u c' rest' p hu
    dsimp only at hu
    obtain rfl | hne := eq_or_ne u t
    · rw [Function.update_self, Thread.mk.injEq] at hu
      exact ⟨[], hu.2.symm, rfl⟩
    · rw [Function.update_of_ne hne] at hu
      exact h.loads u c' rest' p hu

theorem Inv.step (h : Inv program m s) (hapart : AllApart program) (hstep : (code T L E).Step s s') :
    Inv program m s' := by
  cases hstep with
  | inside hthread hacts hover =>
    cases hacts with
    | load hnext => exact h.load hapart hthread hnext
    | store hall => exact absurd rfl hover
  | leave hthread hacts hover =>
    cases hacts with
    | load hnext => cases hover
    | store hall => exact h.store hthread hall

theorem inv_of_reachable (hapart : AllApart program) (h : (code T L E).Reachable program m s) :
    Inv program m s :=
  h.invariant (Inv program m) (Inv.start program m) fun _ _ _ hinv hstep => hinv.step hapart hstep

/-- No thread has anything left to do. -/
def Done (s : Config T (Assignment L E) (Phase E) (L → E)) : Prop := ∀ t, (s.threads t).calls = []

/-- A finished thread has finished its whole program. -/
theorem Inv.mem_history_iff (h : Inv program m s) (hdone : Done s) :
    c ∈ s.history.map (fun e => e.2.1) ↔ ∃ t, c ∈ program t := by
  have hprogram : ∀ t, (s.history.filter fun e => e.1 = t).map (fun e => e.2.1) = program t := by
    intro t
    rw [← h.split t, hdone t, List.append_nil]
  constructor
  · intro hc
    obtain ⟨e, he, rfl⟩ := List.mem_map.mp hc
    refine ⟨e.1, ?_⟩
    rw [← hprogram e.1]
    exact mem_of_mem_history he
  · rintro ⟨t, hc⟩
    rw [← hprogram t] at hc
    obtain ⟨e, he, rfl⟩ := List.mem_map.mp hc
    exact List.mem_map_of_mem (List.mem_filter.mp he).1

section
variable (hapart : AllApart program) (h : (code T L E).Reachable program m s)
include hapart h

/-- In whatever order the threads acted, the memory is that of a sequential program
    with the same assignments. -/
theorem memory_eq_sequential (hdone : Done s) (hlist : list.Pairwise Apart)
    (hsame : ∀ c, c ∈ list ↔ ∃ t, c ∈ program t) : s.memory = sequential list m := by
  have hinv := inv_of_reachable hapart h
  rw [hinv.memory, sequential_eq_stores hlist]
  apply stores_congr ((hinv.history_apart hapart).imp Apart.target_ne) (hlist.imp Apart.target_ne)
  intro c
  rw [hinv.mem_history_iff hdone, hsame]

/-- Every target is written once, by one thread. -/
theorem stored_once (hdone : Done s) {t : T} (hc : c ∈ program t) :
    ∃ e, s.history.filter (fun e => e.2.1.target = c.target) = [e] := by
  have hinv := inv_of_reachable hapart h
  obtain ⟨e, he, rfl⟩ := List.mem_map.mp ((hinv.mem_history_iff hdone).mpr ⟨t, hc⟩)
  have hpairwise := List.pairwise_map.mp ((hinv.history_apart hapart).imp Apart.target_ne)
  exact ⟨e, filter_eq_singleton (f := fun e => e.2.1.target) hpairwise he⟩

end

def Phase.loads : Phase E → Nat
  | .loaded values => values.length
  | .stored => 0

/-- The loads and stores that a thread still has to do. -/
def work (thread : Thread (Assignment L E) (Phase E)) : Nat :=
  (thread.calls.flatMap fun c => c.sources).length - thread.phase.loads + thread.calls.length

theorem step_work (hstep : (code T L E).Step s s') :
    ∃ t, work (s'.threads t) < work (s.threads t) ∧ ∀ u, u ≠ t → s'.threads u = s.threads u := by
  obtain ⟨t, c, rest, p, p', hturn⟩ := hstep.turn
  refine ⟨t, ?_, hturn.others⟩
  have hacts := hturn.acts
  generalize s.memory = m, s'.memory = m' at hacts
  obtain ⟨hover, hafter⟩ | ⟨hover, hafter⟩ := hturn.after
  · cases hacts with
    | load hnext =>
      obtain ⟨hlt, -⟩ := List.getElem?_eq_some_iff.mp hnext
      simp only [work, hafter, hturn.thread, Phase.loads, List.flatMap_cons, List.length_append, List.length_singleton]
      omega
    | store hall => exact absurd rfl hover
  · cases hacts with
    | load hnext => cases hover
    | store hall =>
      simp only [work, hafter, hturn.thread, code, Phase.loads, List.flatMap_cons, List.length_append, List.length_cons,
        List.length_nil]
      omega

theorem sum_work_lt [Fintype T] (hstep : (code T L E).Step s s') :
    ∑ t, work (s'.threads t) < ∑ t, work (s.threads t) := by
  obtain ⟨t, hlt, hothers⟩ := step_work hstep
  apply Finset.sum_lt_sum _ ⟨t, Finset.mem_univ t, hlt⟩
  intro u _
  obtain rfl | hne := eq_or_ne u t
  · exact hlt.le
  · rw [hothers u hne]

theorem Inv.exists_step (h : Inv program m s) {t : T} (ht : (s.threads t).calls ≠ []) :
    ∃ s', (code T L E).Step s s' := by
  obtain ⟨c, rest, hcalls⟩ := List.exists_cons_of_ne_nil ht
  have hthread : s.threads t = ⟨c :: rest, (s.threads t).phase⟩ := by rw [← hcalls]
  obtain ⟨values, hphase, htake⟩ := h.loads t c rest _ hthread
  rw [hphase] at hthread
  have hle : values.length ≤ c.sources.length := by
    have hlength := congrArg List.length htake
    rw [List.length_map, List.length_take] at hlength
    omega
  obtain hlt | heq := hle.lt_or_eq
  · exact Code.exists_step hthread (.load (List.getElem?_eq_getElem hlt))
  · exact Code.exists_step hthread (.store heq)

/-- Every run can be completed. -/
theorem exists_done [Fintype T] (hapart : AllApart program) (h : (code T L E).Reachable program m s) :
    ∃ k s', Run (code T L E).Step k s s' ∧ Done s' := by
  obtain ⟨k, s', hrun, hfinal⟩ := exists_final (fun s s' (hstep : (code T L E).Step s s') => sum_work_lt hstep) s
  refine ⟨k, s', hrun, fun t => ?_⟩
  by_contra ht
  obtain ⟨s'', hstep⟩ := (inv_of_reachable hapart (h.run hrun)).exists_step ht
  exact hfinal s'' hstep

end assignments
