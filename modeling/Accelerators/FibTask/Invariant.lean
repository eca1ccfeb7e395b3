import Accelerators.FibTask

open accelerators.parallel_fib (SerialFib)

namespace accelerators.fib_task

/-- The argument of the child whose result goes to `x` or `y`. -/
def arg (n : Int64) : Local → Int64
  | .x => n - 1
  | .y => n - 2

namespace Phase

/-- The child that was allocated for `x` or `y`. -/
def child : Phase → Local → Option Nat
  | set_ref_count a _, .x | spawn_b a _, .x | spawn_a a _, .x | wait a _, .x => some a
  | set_ref_count _ b, .y | spawn_b _ b, .y | spawn_a _ b, .y | wait _ b, .y => some b
  | _, _ => none

/-- Whether that child has been spawned. -/
def spawned : Phase → Local → Bool
  | spawn_a _ _, .y | wait _ _, _ => true
  | _, _ => false

end Phase

variable {n₀ : Int64} {m m₁ m' : Memory} {t c d p : Nat} {task parent child : FibTask} {v w : Local}

/-- What is known of a task without a look at its frame. -/
structure Known where
  parent : Option Nat
  sum : Cell
  n : Int64
  allocated : Bool
  complete : Bool

def FibTask.known (task : FibTask) : Known :=
  ⟨task.parent, task.sum, task.n, task.phase = .spawn, task.phase = .complete⟩

def Memory.known (m : Memory) (t : Nat) : Option Known := (m.tasks t).map FibTask.known

/-- A task that is to store the number for `n` in a variable with the contents `value`,
    from its allocation on until after it was destroyed. -/
def Slot (parent : Option Nat) (sum : Cell) (n : Int64) (spawned : Bool) (value : Option Int64) :
    Option Known → Prop
  | none => spawned = true ∧ value = some (SerialFib n)
  | some child => child.parent = parent ∧ child.sum = sum ∧ child.n = n ∧ child.allocated = !spawned ∧
    (child.complete = true → value = some (SerialFib n))

/-- The slot of the child for `x` or `y`. -/
def ChildAt (m : Memory) (t : Nat) (task : FibTask) (v : Local) (c : Nat) : Prop :=
  Slot (some t) (.frame t v) (arg task.n v) (task.phase.spawned v) (task.frame v) (m.known c)

/-- How many of the tasks `a` and `b` are there. -/
def alive (m : Memory) (a b : Nat) : Nat := (m.known a).isSome.toNat + (m.known b).isSome.toNat

/-- A task is the root, or it has a parent that waits for it or is about to do so. -/
def Owned (m : Memory) (t : Nat) (task : FibTask) : Prop :=
  task.parent = none ∧ t = 0 ∨
    ∃ p parent v, task.parent = some p ∧ m.tasks p = some parent ∧ parent.phase.child v = some t

structure Family (m : Memory) (t : Nat) (task : FibTask) : Prop where
  large : ∀ v c, task.phase.child v = some c → t < c ∧ c < m.next ∧ ¬ task.n < CutOff
  child : ∀ v c, task.phase.child v = some c → ChildAt m t task v c
  count : ∀ a b, task.phase.child .x = some a → task.phase.child .y = some b →
    a ≠ b ∧ (task.phase ≠ .set_ref_count a b → task.ref_count = 1 + alive m a b)

/-- The tasks are a tree with the task `0` as its root, and the count of a task that
    waits is one more than its children that are there. -/
structure Inv (n₀ : Int64) (m : Memory) : Prop where
  fresh : ∀ t, m.next ≤ t → m.tasks t = none
  root : Slot none .result n₀ true m.sum (m.known 0)
  owned : ∀ t task, m.tasks t = some task → Owned m t task
  family : ∀ t task, m.tasks t = some task → Family m t task

@[simp] theorem modify_tasks (f : FibTask → FibTask) (u : Nat) :
    (m.modify t f).tasks u = if u = t then (m.tasks t).map f else m.tasks u :=
  Function.update_apply ..

@[simp] theorem modify_next (f : FibTask → FibTask) : (m.modify t f).next = m.next := rfl

@[simp] theorem modify_sum (f : FibTask → FibTask) : (m.modify t f).sum = m.sum := rfl

/-- The actions of a task, one for each phase. -/
inductive Acts (m : Memory) (t : Nat) (task : FibTask) : Memory → Prop where
  | small {m' : Memory} (hphase : task.phase = .execute) (hn : task.n < CutOff)
      (hstore : m.store task.sum (SerialFib task.n) = some m') :
      Acts m t task (m'.modify t fun task => { task with phase := .complete })
  | fork (hphase : task.phase = .execute) (hn : ¬ task.n < CutOff) : Acts m t task (m.fork t task.n)
  | set_ref_count {a b : Nat} (hphase : task.phase = .set_ref_count a b) :
      Acts m t task (m.modify t fun task => { task with ref_count := 2 + 1, phase := .spawn_b a b })
  | spawn_b {a b : Nat} (hphase : task.phase = .spawn_b a b) :
      Acts m t task ((m.spawn b).modify t fun task => { task with phase := .spawn_a a b })
  | spawn_a {a b : Nat} (hphase : task.phase = .spawn_a a b) :
      Acts m t task ((m.spawn a).modify t fun task => { task with phase := .wait a b })
  | sum {a b : Nat} {x y : Int64} {m' : Memory} (hphase : task.phase = .wait a b) (hcount : task.ref_count = 1)
      (hx : task.frame .x = some x) (hy : task.frame .y = some y) (hstore : m.store task.sum (x + y) = some m') :
      Acts m t task (m'.modify t fun task => { task with ref_count := 0, phase := .complete })
  | complete (hphase : task.phase = .complete) : Acts m t task (m.complete t task)

theorem Acts.act (h : Acts m t task m') (ht : m.tasks t = some task) : m.act t = some m' := by
  rw [Memory.act, ht]
  cases h with
  | small hphase hn hstore =>
    simp only [Option.bind_eq_bind, Option.bind_some, hphase, if_pos hn, hstore]
    rfl
  | fork hphase hn =>
    simp only [Option.bind_eq_bind, Option.bind_some, hphase, if_neg hn]
    rfl
  | sum hphase hcount hx hy hstore =>
    simp only [Option.bind_eq_bind, Option.bind_some, hphase, if_pos hcount, hx, hy, hstore]
    rfl
  | set_ref_count hphase | spawn_b hphase | spawn_a hphase | complete hphase =>
    simp only [Option.bind_eq_bind, Option.bind_some, hphase]
    rfl

theorem Acts.step (h : Acts m t task m') (ht : m.tasks t = some task) : Step m m' := ⟨t, h.act ht⟩

theorem known_of_tasks (h : m.tasks t = some task) : m.known t = some task.known := by
  rw [Memory.known, h]
  rfl

theorem Inv.childAt (h : Inv n₀ m) (hparent : m.tasks p = some parent) (hchild : parent.phase.child v = some c) :
  ChildAt m p parent v c := (h.family p parent hparent).child v c hchild

/-- A task has one owner. -/
theorem Inv.owner_eq (h : Inv n₀ m) (hparent : m.tasks p = some parent) (hchild : parent.phase.child v = some c)
    (hc : m.tasks c = some child) : child.parent = some p ∧ child.sum = .frame p v := by
  have hslot := h.childAt hparent hchild
  rw [ChildAt, known_of_tasks hc] at hslot
  exact ⟨hslot.1, hslot.2.1⟩

theorem Family.congr (h : Family m t task) (hnext : m.next ≤ m'.next)
    (hchild : ∀ v c, task.phase.child v = some c → m'.known c = m.known c ∨
      ChildAt m' t task v c ∧ (m'.known c).isSome = (m.known c).isSome) : Family m' t task where
  large := fun v c hc => ⟨(h.large v c hc).1, (h.large v c hc).2.1.trans_le hnext, (h.large v c hc).2.2⟩
  child := by
    intro v c hc
    obtain hknown | ⟨hslot, -⟩ := hchild v c hc
    · rw [ChildAt, hknown]
      exact h.child v c hc
    · exact hslot
  count := by
    intro a b ha hb
    have halive : ∀ v c, task.phase.child v = some c → (m'.known c).isSome = (m.known c).isSome :=
      fun v c hc => (hchild v c hc).elim (congrArg Option.isSome) And.right
    rw [alive, halive _ a ha, halive _ b hb]
    exact h.count a b ha hb

/-- Tasks without children. -/
theorem Family.of_no_child (h : ∀ v, task.phase.child v = none) : Family m t task where
  large := by simp [h]
  child := by simp [h]
  count := by simp [h]

/-- What is to be shown of an action: the invariant of the root, that of the tasks
    with changes to themselves or to their children, who owns a new task, and that no
    task gives up a child that is there. -/
theorem Inv.of_changes (h : Inv n₀ m) (hnext : m.next ≤ m'.next)
    (hfresh : ∀ u, m'.next ≤ u → m'.tasks u = none)
    (hroot : Slot none .result n₀ true m'.sum (m'.known 0))
    (howned : ∀ u task', m'.tasks u = some task' →
      (∃ task, m.tasks u = some task ∧ task'.parent = task.parent) ∨ Owned m' u task')
    (hkeeps : ∀ p parent v u, m.tasks p = some parent → parent.phase.child v = some u → (m'.tasks u).isSome →
      ∃ parent', m'.tasks p = some parent' ∧ parent'.phase.child v = some u)
    (hfamily : ∀ u task', m'.tasks u = some task' → Family m' u task' ∨
      m.tasks u = some task' ∧ ∀ v c, task'.phase.child v = some c → m'.known c = m.known c ∨
        ChildAt m' u task' v c ∧ (m'.known c).isSome = (m.known c).isSome) : Inv n₀ m' where
  fresh := hfresh
  root := hroot
  owned := by
    intro u task' hu
    obtain ⟨task, hold, hparent⟩ | hnew := howned u task' hu
    · obtain ⟨hnone, hzero⟩ | ⟨p, parent, v, hp, htask, hv⟩ := h.owned u task hold
      · exact .inl ⟨hparent.trans hnone, hzero⟩
      · obtain ⟨parent', htask', hv'⟩ := hkeeps p parent v u htask hv (by simp [hu])
        exact .inr ⟨p, parent', v, hparent.trans hp, htask', hv'⟩
    · exact hnew
  family := by
    intro u task' hu
    obtain hfam | ⟨hold, hknown⟩ := hfamily u task' hu
    · exact hfam
    · exact (h.family u task' hold).congr hnext hknown

/-- Only its owner has a task as a child. -/
theorem Inv.child_ne (h : Inv n₀ m) (hu : m.tasks u = some parent) (hv : parent.phase.child v = some c)
    (ht : m.tasks t = some task) (hne : task.parent ≠ some u) : c ≠ t := by
  rintro rfl
  exact hne (h.owner_eq hu hv ht).1

theorem Inv.lt_next (h : Inv n₀ m) (ht : m.tasks t = some task) : t < m.next := by
  by_contra hle
  rw [h.fresh t (Nat.not_lt.mp hle)] at ht
  cases ht

/-- The variable that a cell stands for. -/
def Memory.read (m : Memory) : Cell → Option Int64
  | .result => m.sum
  | .frame t v => (m.tasks t).bind fun task => task.frame v

/-- The root and a task with a parent store where the owner of the task looks. -/
theorem Inv.sum_cases (h : Inv n₀ m) (ht : m.tasks t = some task) :
    (task.parent = none ∧ t = 0 ∧ task.sum = .result ∧ task.n = n₀) ∨
    ∃ p parent v, task.parent = some p ∧ m.tasks p = some parent ∧ parent.phase.child v = some t ∧
      task.sum = .frame p v ∧ task.n = arg parent.n v ∧ p < t := by
  obtain ⟨hnone, rfl⟩ | ⟨p, parent, v, hparent, hp, hv⟩ := h.owned t task ht
  · have hroot := h.root
    rw [known_of_tasks ht] at hroot
    exact .inl ⟨hnone, rfl, hroot.2.1, hroot.2.2.1⟩
  · have hslot := h.childAt hp hv
    rw [ChildAt, known_of_tasks ht] at hslot
    exact .inr ⟨p, parent, v, hparent, hp, hv, hslot.2.1, hslot.2.2.1, ((h.family p parent hp).large v t hv).1⟩

theorem known_modify (f : FibTask → FibTask) (u : Nat) :
    (m.modify t f).known u = if u = t then (m.tasks t).map fun task => (f task).known else m.known u := by
  rw [Memory.known, modify_tasks]
  split_ifs
  · rw [Option.map_map]
    rfl
  · rfl

theorem Inv.fresh_modify (h : Inv n₀ m) (ht : m.tasks t = some task) (f : FibTask → FibTask) :
    ∀ u, (m.modify t f).next ≤ u → (m.modify t f).tasks u = none := by
  intro u hu
  rw [modify_tasks, if_neg]
  · exact h.fresh u hu
  · have hlt := h.lt_next ht
    rw [modify_next] at hu
    omega

theorem owned_modify (ht : m.tasks t = some task) {f : FibTask → FibTask}
    (hparent : (f task).parent = task.parent) : ∀ u task', (m.modify t f).tasks u = some task' →
    (∃ task, m.tasks u = some task ∧ task'.parent = task.parent) ∨ Owned (m.modify t f) u task' := by
  intro u task' hu
  rw [modify_tasks, ht] at hu
  split_ifs at hu with heq
  · cases hu
    exact .inl ⟨task, heq ▸ ht, hparent⟩
  · exact .inl ⟨task', hu, rfl⟩

/-- A change to one task that nobody else knows of. -/
theorem Inv.modify (h : Inv n₀ m) (ht : m.tasks t = some task) {f : FibTask → FibTask}
    (hknown : (f task).known = task.known) (hchild : ∀ v, (f task).phase.child v = task.phase.child v)
    (hfamily : Family m t (f task)) : Inv n₀ (m.modify t f) := by
  have hknown' : ∀ u, (m.modify t f).known u = m.known u := by
    intro u
    rw [known_modify, ht]
    split_ifs with hu
    · rw [hu, known_of_tasks ht, Option.map_some, hknown]
    · rfl
  refine h.of_changes le_rfl (h.fresh_modify ht f) ?_ (owned_modify ht (congrArg Known.parent hknown)) ?_ ?_
  · rw [hknown']
    exact h.root
  · intro q parent w u hq hw hu
    rw [modify_tasks, ht]
    split_ifs with heq
    · rw [heq, ht] at hq
      cases hq
      exact ⟨_, rfl, (hchild w).trans hw⟩
    · exact ⟨parent, hq, hw⟩
  · intro u task' hu
    rw [modify_tasks, ht] at hu
    split_ifs at hu with heq
    · cases hu
      subst heq
      exact .inl (hfamily.congr le_rfl fun v c hc => .inl (hknown' c))
    · exact .inr ⟨hu, fun w c hw => .inl (hknown' c)⟩

theorem Inv.sibling_ne (h : Inv n₀ m) (ht : m.tasks t = some task) (hc : task.phase.child v = some c)
    (hd : task.phase.child w = some d) (hne : v ≠ w) : c ≠ d := by
  have hcount := (h.family t task ht).count
  cases v <;> cases w
  · exact absurd rfl hne
  · exact (hcount c d hc hd).1
  · exact (hcount d c hd hc).1.symm
  · exact absurd rfl hne

theorem Phase.children {phase : Phase} (h : phase.child v = some c) :
    ∃ a b, phase.child .x = some a ∧ phase.child .y = some b := by
  cases phase with
  | spawn | execute | complete => cases v <;> cases h
  | set_ref_count a b | spawn_b a b | spawn_a a b | wait a b => exact ⟨a, b, rfl, rfl⟩

/-- A task waits for its spawned child, and counts it. -/
theorem Inv.counted (h : Inv n₀ m) (hp : m.tasks p = some parent) (hv : parent.phase.child v = some t)
    (ht : m.tasks t = some task) (hspawned : task.phase ≠ .spawn) :
    parent.phase.spawned v = true ∧ 2 ≤ parent.ref_count ∧ ∀ a b, parent.phase ≠ .set_ref_count a b := by
  have hslot := h.childAt hp hv
  rw [ChildAt, known_of_tasks ht] at hslot
  have hspawned : parent.phase.spawned v = true := by
    have hallocated : decide (task.phase = .spawn) = !parent.phase.spawned v := hslot.2.2.2.1
    simpa [hspawned] using hallocated
  have hphase : ∀ a b, parent.phase ≠ .set_ref_count a b := by
    intro a b heq
    rw [heq] at hspawned
    cases v <;> cases hspawned
  obtain ⟨a, b, ha, hb⟩ := Phase.children hv
  have hcount := ((h.family p parent hp).count a b ha hb).2 (hphase a b)
  have hpos : 1 ≤ alive m a b := by
    have hsome : (m.known t).isSome.toNat = 1 := by
      rw [known_of_tasks ht]
      rfl
    cases v with
    | x =>
      obtain rfl : a = t := Option.some.inj (ha.symm.trans hv)
      exact hsome ▸ Nat.le_add_right _ _
    | y =>
      obtain rfl : b = t := Option.some.inj (hb.symm.trans hv)
      exact hsome ▸ Nat.le_add_left _ _
  exact ⟨hspawned, by omega, hphase⟩

/-- A child that was not spawned is there, and was not executed. -/
theorem Inv.allocated (h : Inv n₀ m) (ht : m.tasks t = some task) (hc : task.phase.child v = some c)
    (hnot : task.phase.spawned v = false) : ∃ child, m.tasks c = some child ∧ child.phase = .spawn := by
  have hslot := h.childAt ht hc
  rw [ChildAt, hnot, Memory.known] at hslot
  cases hchild : m.tasks c with
  | none =>
    rw [hchild] at hslot
    cases hslot.1
  | some child =>
    rw [hchild] at hslot
    exact ⟨child, rfl, of_decide_eq_true hslot.2.2.2.1⟩

/-- With a count of one, both results are there. -/
theorem Inv.waited (h : Inv n₀ m) {a b : Nat} (ht : m.tasks t = some task) (ha : task.phase.child .x = some a)
    (hb : task.phase.child .y = some b) (hphase : task.phase ≠ .set_ref_count a b) (hcount : task.ref_count = 1) :
    m.tasks a = none ∧ m.tasks b = none ∧ ∀ v, task.frame v = some (SerialFib (arg task.n v)) := by
  have halive := ((h.family t task ht).count a b ha hb).2 hphase
  rw [alive] at halive
  have hnone : ∀ c, (m.known c).isSome.toNat = 0 → m.known c = none := by
    intro c hc
    simpa using hc
  have ha' := hnone a (by omega)
  have hb' := hnone b (by omega)
  refine ⟨Option.map_eq_none_iff.mp ha', Option.map_eq_none_iff.mp hb', fun v => ?_⟩
  cases v with
  | x =>
    have hslot := h.childAt ht ha
    rw [ChildAt, ha'] at hslot
    exact hslot.2
  | y =>
    have hslot := h.childAt ht hb
    rw [ChildAt, hb'] at hslot
    exact hslot.2

end accelerators.fib_task
