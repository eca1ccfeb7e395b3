import Mathlib.Data.Fintype.Basic
import Accelerators.SafeAssign.Serial

open interleaving locks transition_system

namespace accelerators.safe_assign.A

variable {T O V : Type} [DecidableEq T] [DecidableEq O] {s : Config T (Call O) Phase (Memory T O V)}
  {program : T → List (Call O)} {m : Memory T O V} {t : T} {c : Call O} {x y : O} {rest : List (Call O)} {k : Nat}
  {p p' : Phase} {m' : Memory T O V}

/-- `s'` is reached from `s` by actions of `t` alone. -/
def Alone (t : T) (s s' : Config T (Call O) Phase (Memory T O V)) : Prop :=
  (∃ k, Run code.Step k s s') ∧ ∀ u, u ≠ t → s'.threads u = s.threads u

theorem Alone.refl (t : T) (s : Config T (Call O) Phase (Memory T O V)) : Alone t s s :=
  ⟨⟨0, .refl s⟩, fun _ _ => rfl⟩

theorem Alone.trans {s' s'' : Config T (Call O) Phase (Memory T O V)} (h : Alone t s s') (h' : Alone t s' s'') :
    Alone t s s'' := by
  obtain ⟨⟨j, hrun⟩, hothers⟩ := h
  obtain ⟨⟨k, hrun'⟩, hothers'⟩ := h'
  exact ⟨⟨j + k, hrun.trans hrun'⟩, fun u hne => (hothers' u hne).trans (hothers u hne)⟩

theorem Alone.reachable {s' : Config T (Call O) Phase (Memory T O V)} (h : Alone t s s')
    (hs : code.Reachable program m s) : code.Reachable program m s' := by
  obtain ⟨⟨k, hrun⟩, -⟩ := h
  exact hs.run hrun

theorem exists_alone_inside (hthread : s.threads t = ⟨c :: rest, p⟩) (hacts : code.Acts t c s.memory p m' p')
    (hover : p' ≠ .returned) : ∃ s', Alone t s s' ∧ s'.threads t = ⟨c :: rest, p'⟩ ∧ s'.memory = m' :=
  ⟨_, ⟨⟨1, (Run.refl s).tail (.inside hthread hacts hover)⟩, fun _ hne => Function.update_of_ne hne _ _⟩,
    Function.update_self .., rfl⟩

theorem exists_alone_leave (hthread : s.threads t = ⟨c :: rest, p⟩)
    (hacts : code.Acts t c s.memory p m' .returned) :
    ∃ s', Alone t s s' ∧ s'.threads t = ⟨rest, .entry⟩ :=
  ⟨_, ⟨⟨1, (Run.refl s).tail (.leave hthread hacts rfl)⟩, fun _ hne => Function.update_of_ne hne _ _⟩,
    Function.update_self ..⟩

/-- When its copy is complete, an assignment gives back its locks and returns. -/
theorem exists_returned_of_unlockLhs (hthread : s.threads t = ⟨c :: rest, .unlockLhs⟩) :
    ∃ s', Alone t s s' ∧ s'.threads t = ⟨rest, .entry⟩ :=
  exists_alone_leave hthread .unlockLhs

theorem exists_returned_of_unlockRhs (hthread : s.threads t = ⟨c :: rest, .unlockRhs⟩) :
    ∃ s', Alone t s s' ∧ s'.threads t = ⟨rest, .entry⟩ := by
  obtain ⟨s₁, halone, hthread₁, -⟩ := exists_alone_inside hthread .unlockRhs (by simp)
  obtain ⟨s', halone', hreturned⟩ := exists_returned_of_unlockLhs hthread₁
  exact ⟨s', halone.trans halone', hreturned⟩

/-- An assignment that has got both locks waits for nobody. The induction is on
    the number of elements that are still to be copied. -/
theorem exists_returned_of_assign (hne : x ≠ y) (hthread : s.threads t = ⟨(x, y) :: rest, .assign k⟩) :
    ∃ s', Alone t s s' ∧ s'.threads t = ⟨rest, .entry⟩ := by
  induction hleft : (s.memory.data_ y).length - k generalizing s k with
  | zero =>
    have hend : (s.memory.data_ y)[k]? = none := List.getElem?_eq_none (by omega)
    obtain ⟨s₁, halone, hthread₁, -⟩ := exists_alone_inside hthread (.data (.finish hend)) (by simp)
    obtain ⟨s', halone', hreturned⟩ := exists_returned_of_unlockRhs hthread₁
    exact ⟨s', halone.trans halone', hreturned⟩
  | succ left ih =>
    have hv : (s.memory.data_ y)[k]? = some (s.memory.data_ y)[k] := List.getElem?_eq_getElem (by omega)
    obtain ⟨s₁, halone, hthread₁, hmemory⟩ := exists_alone_inside hthread (.data (.element hv)) (by simp)
    have hsource : s₁.memory.data_ y = s.memory.data_ y := by
      rw [hmemory]
      exact Function.update_of_ne hne.symm _ _
    obtain ⟨s', halone', hreturned⟩ := ih hthread₁ (by rw [hsource]; omega)
    exact ⟨s', halone.trans halone', hreturned⟩

/-- A thread can get to where it holds no lock. -/
theorem exists_released (hstart : ∀ l, m.mut_ l = .shared []) (h : code.Reachable program m s) (t : T) :
    ∃ s', Alone t s s' ∧ holdings held s'.threads t = [] := by
  have hreturned : ∀ t, (s.threads t).phase ≠ .returned := h.not_over (by simp [code])
  have hdone : ∀ s' : Config T (Call O) Phase (Memory T O V), ∀ rest, s'.threads t = ⟨rest, .entry⟩ →
      holdings held s'.threads t = [] := by
    intro s' rest hthread
    cases rest <;> simp [holdings, hthread, held, Phase.held]
  cases hthread : s.threads t with
  | mk calls p =>
    cases calls with
    | nil => exact ⟨s, .refl t s, by simp [holdings, hthread]⟩
    | cons c rest =>
      obtain ⟨x, y⟩ := c
      cases p with
      | entry => exact ⟨s, .refl t s, hdone s _ hthread⟩
      | lock swapped => exact ⟨s, .refl t s, by simp [holdings, hthread, held, Phase.held]⟩
      | tryLock swapped =>
        obtain ⟨s', halone, hthread', -⟩ := exists_alone_inside hthread (.backOff swapped) (by simp)
        exact ⟨s', halone, by simp [holdings, hthread', held, Phase.held]⟩
      | assign k =>
        obtain ⟨s', halone, hthread'⟩ := exists_returned_of_assign (copy_ne (accounts hstart h) hthread) hthread
        exact ⟨s', halone, hdone s' rest hthread'⟩
      | unlockRhs =>
        obtain ⟨s', halone, hthread'⟩ := exists_returned_of_unlockRhs hthread
        exact ⟨s', halone, hdone s' rest hthread'⟩
      | unlockLhs =>
        obtain ⟨s', halone, hthread'⟩ := exists_returned_of_unlockLhs hthread
        exact ⟨s', halone, hdone s' rest hthread'⟩
      | returned => exact absurd (congrArg Thread.phase hthread) (hreturned t)

/-- No thread holds a lock. -/
def Quiet (s : Config T (Call O) Phase (Memory T O V)) : Prop := ∀ t, holdings held s.threads t = []

theorem Quiet.free (hquiet : Quiet s) (hstart : ∀ l, m.mut_ l = .shared []) (h : code.Reachable program m s) (l : O) :
    s.memory.mut_ l = .shared [] :=
  (accounts hstart h).eq_shared_nil fun t mode hmem => by simp [hquiet t] at hmem

omit [DecidableEq T] [DecidableEq O] in
theorem holdings_entry (hthread : s.threads t = ⟨rest, .entry⟩) : holdings held s.threads t = [] := by
  cases rest <;> simp [holdings, hthread, held, Phase.held]

/-- What a thread holds is not changed by actions of another one. -/
theorem Alone.quiet {s' : Config T (Call O) Phase (Memory T O V)} (h : Alone t s s') (hquiet : Quiet s)
    (hthread : s'.threads t = ⟨rest, .entry⟩) : Quiet s' := by
  intro u
  obtain rfl | hne := eq_or_ne u t
  · exact holdings_entry hthread
  · rw [holdings, h.2 u hne]
    exact hquiet u

/-- Only the assignment of an object to another one gets to its locks. -/
theorem ne_of_lock (h : code.Reachable program m s) {swapped : Bool}
    (hthread : s.threads t = ⟨(x, y) :: rest, .lock swapped⟩) : x ≠ y := by
  refine h.locally (fun _ c p _ => p ≠ .entry → p ≠ .returned → c.1 ≠ c.2) ?_ ?_ ?_ t (x, y) rest _ hthread
    (by simp) (by simp)
  · exact fun _ _ _ hentry => absurd rfl hentry
  · rintro s s' t c rest p p' - hturn hne - hreturned
    have hacts : AssignActs (lhs_lock c) (rhs_lock c) t c.1 c.2 s.memory p s'.memory p' := hturn.acts
    generalize s'.memory = m' at hacts
    cases hacts with
    | self heq => exact absurd rfl hreturned
    | other hne' swapped => exact hne'
    | data hdata => cases hdata <;> exact hne (by simp) (by simp)
    | _ => exact hne (by simp) (by simp)
  · exact fun _ _ _ _ _ _ _ _ _ _ _ _ hne => hne

/-- When nobody holds a lock, `lock` gets both of them. -/
theorem exists_returned_of_lock {swapped : Bool} (hfree : ∀ l, s.memory.mut_ l = .shared []) (hne : x ≠ y)
    (hthread : s.threads t = ⟨(x, y) :: rest, .lock swapped⟩) :
    ∃ s', Alone t s s' ∧ s'.threads t = ⟨rest, .entry⟩ := by
  obtain ⟨s₁, halone, hthread₁, hmemory⟩ :=
    exists_alone_inside hthread (.lock (grantable_of_free (hfree _))) (by simp)
  have hother : (pick (lhs_lock (x, y)) (rhs_lock (x, y)) !swapped).lock ≠
      (pick (lhs_lock (x, y)) (rhs_lock (x, y)) swapped).lock := by
    cases swapped
    · exact hne.symm
    · exact hne
  have hgrant : Grantable s₁.memory.mut_ t (pick (lhs_lock (x, y)) (rhs_lock (x, y)) !swapped) := by
    apply grantable_of_free
    rw [hmemory]
    exact (Function.update_of_ne hother _ _).trans (hfree _)
  obtain ⟨s₂, halone₂, hthread₂, -⟩ := exists_alone_inside hthread₁ (.tryLock hgrant) (by simp)
  obtain ⟨s', halone', hreturned⟩ := exists_returned_of_assign hne hthread₂
  exact ⟨s', (halone.trans halone₂).trans halone', hreturned⟩

/-- When nobody holds a lock, a thread can make its next assignment. -/
theorem exists_returned (hstart : ∀ l, m.mut_ l = .shared []) (h : code.Reachable program m s) (hquiet : Quiet s)
    (hthread : s.threads t = ⟨c :: rest, p⟩) : ∃ s', Alone t s s' ∧ s'.threads t = ⟨rest, .entry⟩ := by
  obtain ⟨x, y⟩ := c
  have hfree := hquiet.free hstart h
  have hnone := hquiet t
  rw [holdings, hthread] at hnone
  cases p with
  | entry =>
    by_cases hxy : x = y
    · exact exists_alone_leave hthread (.self hxy)
    · obtain ⟨s₁, halone, hthread₁, hmemory⟩ := exists_alone_inside hthread (.other hxy false) (by simp)
      obtain ⟨s', halone', hreturned⟩ := exists_returned_of_lock (hmemory ▸ hfree) hxy hthread₁
      exact ⟨s', halone.trans halone', hreturned⟩
  | lock swapped => exact exists_returned_of_lock hfree (ne_of_lock h hthread) hthread
  | returned => exact absurd (congrArg Thread.phase hthread) (h.not_over (by simp [code]) t)
  | _ => simp [held, Phase.held] at hnone

/-- It can make all of them. -/
theorem exists_all_returned (hstart : ∀ l, m.mut_ l = .shared []) (h : code.Reachable program m s) (hquiet : Quiet s)
    (t : T) : ∃ s', Alone t s s' ∧ Quiet s' ∧ (s'.threads t).calls = [] := by
  cases hthread : s.threads t with
  | mk calls p =>
    induction calls generalizing s p with
    | nil => exact ⟨s, .refl t s, hquiet, by rw [hthread]⟩
    | cons c rest ih =>
      obtain ⟨s₁, halone, hthread₁⟩ := exists_returned hstart h hquiet hthread
      obtain ⟨s', halone', hquiet', hcalls⟩ :=
        ih (halone.reachable h) (halone.quiet hquiet hthread₁) .entry hthread₁
      exact ⟨s', halone.trans halone', hquiet', hcalls⟩

/-- Threads can one after the other get to where they hold no lock. -/
theorem exists_all_released (hstart : ∀ l, m.mut_ l = .shared []) (h : code.Reachable program m s)
    (threads : Finset T) : ∃ k s', Run code.Step k s s' ∧ (∀ t ∉ threads, s'.threads t = s.threads t) ∧
      ∀ t ∈ threads, holdings held s'.threads t = [] := by
  induction threads using Finset.induction_on with
  | empty => exact ⟨0, s, .refl s, fun _ _ => rfl, by simp⟩
  | insert t threads hmem ih =>
    obtain ⟨k, s₁, hrun, hothers, hreleased⟩ := ih
    obtain ⟨s', ⟨⟨k', hrun'⟩, hothers'⟩, hreleased'⟩ := exists_released hstart (h.run hrun) t
    refine ⟨k + k', s', hrun.trans hrun', fun u hu => ?_, fun u hu => ?_⟩
    · rw [Finset.mem_insert, not_or] at hu
      exact (hothers' u hu.1).trans (hothers u hu.2)
    · obtain rfl | hne := eq_or_ne u t
      · exact hreleased'
      · rw [holdings, hothers' u hne]
        exact hreleased u (Finset.mem_of_mem_insert_of_ne hu hne)

/-- Only threads that have begun hold locks, and these are finitely many. -/
theorem exists_begun (h : code.Reachable program m s) :
    ∃ threads : Finset T, ∀ t ∉ threads, holdings held s.threads t = [] := by
  refine h.invariant (fun s => ∃ threads : Finset T, ∀ t ∉ threads, holdings held s.threads t = []) ?_ ?_
  · exact ⟨∅, fun t _ => holdings_entry rfl⟩
  · rintro s s' - ⟨threads, hthreads⟩ hstep
    obtain ⟨t, c, rest, p, p', hturn⟩ := hstep.turn
    refine ⟨insert t threads, fun u hu => ?_⟩
    rw [Finset.mem_insert, not_or] at hu
    rw [holdings, hturn.others u hu.1]
    exact hthreads u hu.2

theorem exists_quiet (hstart : ∀ l, m.mut_ l = .shared []) (h : code.Reachable program m s) :
    ∃ k s', Run code.Step k s s' ∧ Quiet s' := by
  obtain ⟨begun, hbegun⟩ := exists_begun h
  obtain ⟨k, s', hrun, hothers, hreleased⟩ := exists_all_released hstart h begun
  refine ⟨k, s', hrun, fun t => ?_⟩
  by_cases hmem : t ∈ begun
  · exact hreleased t hmem
  · rw [holdings, hothers t hmem]
    exact hbegun t hmem

/-- From every reachable state, all assignments of some threads can be completed. -/
theorem exists_completed (hstart : ∀ l, m.mut_ l = .shared []) (h : code.Reachable program m s) (threads : Finset T) :
    ∃ k s', Run code.Step k s s' ∧ Quiet s' ∧ ∀ t ∈ threads, (s'.threads t).calls = [] := by
  induction threads using Finset.induction_on with
  | empty =>
    obtain ⟨k, s', hrun, hquiet⟩ := exists_quiet hstart h
    exact ⟨k, s', hrun, hquiet, by simp⟩
  | insert t threads hmem ih =>
    obtain ⟨k, s₁, hrun, hquiet, hcalls⟩ := ih
    obtain ⟨s', ⟨⟨k', hrun'⟩, hothers⟩, hquiet', hcalls'⟩ :=
      exists_all_returned hstart (h.run hrun) hquiet t
    refine ⟨k + k', s', hrun.trans hrun', hquiet', fun u hu => ?_⟩
    obtain rfl | hne := eq_or_ne u t
    · exact hcalls'
    · rw [hothers u hne]
      exact hcalls u (Finset.mem_of_mem_insert_of_ne hu hne)

/-- Assignments among objects of class `A` never come to a deadlock: from every
    reachable state, any threads can complete all of theirs. Between them the
    objects are as if the assignments had been executed one after another. -/
theorem assign_serializable (hstart : ∀ l, m.mut_ l = .shared []) (h : code.Reachable program m s) :
    ((∃ t, (s.threads t).calls ≠ []) → ∃ s', code.Step s s') ∧
    (∀ threads : Finset T, ∃ k s', Run code.Step k s s' ∧ (∀ t ∈ threads, (s'.threads t).calls = []) ∧
      ∀ l, s'.memory.mut_ l = .shared []) ∧
    ((∀ l, s.memory.mut_ l = .shared []) →
      ∃ order : List (T × Call O), order.Perm (s.history.map fun e => (e.1, e.2.1)) ∧
        s.memory.data_ = replay (order.map Prod.snd) m.data_) := by
  have hcompleted : ∀ threads : Finset T, ∃ k s', Run code.Step k s s' ∧
      (∀ t ∈ threads, (s'.threads t).calls = []) ∧ ∀ l, s'.memory.mut_ l = .shared [] := by
    intro threads
    obtain ⟨k, s', hrun, hquiet, hcalls⟩ := exists_completed hstart h threads
    exact ⟨k, s', hrun, hcalls, hquiet.free hstart (h.run hrun)⟩
  refine ⟨?_, hcompleted, serial_of_free hstart h⟩
  rintro ⟨t, hunfinished⟩
  obtain ⟨k, s', hrun, hcalls, -⟩ := hcompleted {t}
  refine hrun.exists_step ?_
  rintro rfl
  exact hunfinished (hcalls t (Finset.mem_singleton_self t))

/-- Two threads assign `a = b` and `b = a` at the same time, one of them after
    `a = a`. -/
def opposed : Config Bool (Call Bool) Phase (Memory Bool Bool Nat) :=
  code.start (fun t => if t then [(true, true), (true, false)] else [(false, true)])
    ⟨fun _ => .shared [], fun x => if x then [1] else [2, 3]⟩

/-- The second one has returned, the first one has not begun. -/
theorem assign_serializable_of_opposed : ∃ s : Config Bool (Call Bool) Phase (Memory Bool Bool Nat),
    s.history = [(false, (false, true), .returned)] ∧ (∀ x, s.memory.data_ x = [1]) ∧ (∃ s', code.Step s s') ∧
    (∃ k s', Run code.Step k s s' ∧ (∀ t, (s'.threads t).calls = []) ∧ ∀ l, s'.memory.mut_ l = .shared []) ∧
    ∃ order : List (Bool × Call Bool), order.Perm [(false, false, true)] ∧
      s.memory.data_ = replay (order.map Prod.snd) opposed.memory.data_ := by
  have hstart : Run code.Step 0 opposed _ := .refl _
  have hother := hstart.tail (.inside (t := false) rfl (AssignActs.other (by decide) false) (by simp [code]))
  have hlock := hother.tail (.inside (t := false) rfl (AssignActs.lock trivial) (by simp [code]))
  have htryLock := hlock.tail (.inside (t := false) rfl (AssignActs.tryLock trivial) (by simp [code]))
  have helement := htryLock.tail
    (.inside (t := false) rfl (AssignActs.data (.element (v := 1) rfl)) (by simp [code]))
  have hfinish := helement.tail (.inside (t := false) rfl (AssignActs.data (.finish rfl)) (by simp [code]))
  have hunlock := hfinish.tail (.inside (t := false) rfl AssignActs.unlockRhs (by simp [code]))
  have hrun := hunlock.tail (.leave (t := false) rfl AssignActs.unlockLhs rfl)
  obtain ⟨hstep, hcompleted, hserial⟩ := assign_serializable (fun _ => rfl) ⟨_, hrun⟩
  obtain ⟨k, s', hrun', hcalls, hfree⟩ := hcompleted Finset.univ
  refine ⟨_, rfl, ?_, hstep ⟨true, by simp [opposed, Code.start]⟩,
    ⟨k, s', hrun', fun t => hcalls t (Finset.mem_univ t), hfree⟩, hserial ?_⟩
  · intro x
    cases x <;> rfl
  · intro l
    cases l <;> rfl

end accelerators.safe_assign.A
