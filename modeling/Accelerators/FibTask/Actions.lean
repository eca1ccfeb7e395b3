import Accelerators.FibTask.Invariant

open accelerators.parallel_fib (SerialFib)

namespace accelerators.fib_task

variable {n₀ : Int64} {m m₁ m' : Memory} {t c d p : Nat} {task parent child : FibTask} {v w : Local}

/-- A result may be stored at any time. -/
theorem Inv.store (h : Inv n₀ m) (ht : m.tasks t = some task)
    (hstore : m.store task.sum (SerialFib task.n) = some m₁) :
    Inv n₀ m₁ ∧ m₁.read task.sum = some (SerialFib task.n) ∧ m₁.tasks t = some task ∧
      ∀ u, m₁.known u = m.known u := by
  obtain ⟨-, rfl, hsum, hn⟩ | ⟨p, parent, v, -, hp, hv, hsum, hn, hlt⟩ := h.sum_cases ht
  · rw [hsum] at hstore ⊢
    obtain rfl := Option.some.inj hstore
    refine ⟨⟨h.fresh, ?_, h.owned, fun u task' hu => (h.family u task' hu).congr le_rfl fun v c hc => .inl rfl⟩,
      rfl, ht, fun u => rfl⟩
    obtain ⟨hparent, hsum', hn', hallocated, -⟩ := known_of_tasks ht ▸ h.root
    have hknown : ({ m with sum := some (SerialFib task.n) } : Memory).known 0 = some task.known := known_of_tasks ht
    rw [hknown]
    exact ⟨hparent, hsum', hn', hallocated, fun _ => by rw [hn]⟩
  · rw [hsum] at hstore ⊢
    simp only [Memory.store, hp, Option.some.injEq] at hstore
    subst hstore
    refine ⟨h.modify hp rfl (fun w => rfl) ⟨(h.family p parent hp).large, fun w c hw => ?_,
      (h.family p parent hp).count⟩,
      by simp [Memory.read, hp], by simp [hlt.ne', ht], fun u => ?_⟩
    · obtain hslot := h.childAt hp hw
      by_cases hwv : w = v
      · subst hwv
        obtain rfl : t = c := Option.some.inj (hv.symm.trans hw)
        rw [ChildAt, known_of_tasks ht] at hslot ⊢
        obtain ⟨hparent', hsum', hn', hallocated, -⟩ := hslot
        refine ⟨hparent', hsum', hn', hallocated, fun _ => ?_⟩
        simp only [Function.update_self]
        rw [hn]
      · rw [ChildAt] at hslot ⊢
        simp only [Function.update_of_ne hwv]
        exact hslot
    · rw [known_modify, hp]
      split_ifs with heq
      · rw [heq, known_of_tasks hp]
        rfl
      · rfl

/-- A task with its result stored and without children that are there is complete. -/
theorem Inv.finish (h : Inv n₀ m) (ht : m.tasks t = some task) (hspawned : task.phase ≠ .spawn)
    (hstored : m.read task.sum = some (SerialFib task.n))
    (hdead : ∀ v c, task.phase.child v = some c → m.tasks c = none) {f : FibTask → FibTask}
    (hf : (f task).parent = task.parent ∧ (f task).sum = task.sum ∧ (f task).n = task.n)
    (hphase : (f task).phase = .complete) : Inv n₀ (m.modify t f) := by
  obtain ⟨hfparent, hfsum, hfn⟩ := hf
  have hknown : ∀ u, (m.modify t f).known u =
      if u = t then some { task.known with allocated := false, complete := true } else m.known u := by
    intro u
    rw [known_modify, ht, Option.map_some, FibTask.known, hfparent, hfsum, hfn, hphase]
    rfl
  have hslot : ∀ {parent sum n spawned value}, Slot parent sum n spawned value (m.known t) →
      value = some (SerialFib n) →
      Slot parent sum n spawned value (some { task.known with allocated := false, complete := true }) := by
    intro parent sum n spawned value hold hvalue
    rw [known_of_tasks ht] at hold
    obtain ⟨hparent, hsum, hn, hallocated, -⟩ := hold
    refine ⟨hparent, hsum, hn, ?_, fun _ => hvalue⟩
    rw [← hallocated]
    simp [FibTask.known, hspawned]
  refine h.of_changes le_rfl (h.fresh_modify ht f) ?_ (owned_modify ht hfparent) ?_ ?_
  · rw [hknown, modify_sum]
    split_ifs with heq
    · refine hslot (heq ▸ h.root) ?_
      obtain ⟨-, -, hsum, hn⟩ | ⟨p, parent, v, -, -, -, -, -, hlt⟩ := h.sum_cases ht
      · rw [hsum, hn] at hstored
        exact hstored
      · omega
    · exact h.root
  · intro q parent w u hq hw hu
    rw [modify_tasks, ht]
    split_ifs with heq
    · subst heq
      rw [ht] at hq
      cases hq
      have hlt := ((h.family q task ht).large w u hw).1
      rw [modify_tasks, if_neg hlt.ne', hdead w u hw] at hu
      cases hu
    · exact ⟨parent, hq, hw⟩
  · intro u task' hu
    rw [modify_tasks, ht] at hu
    split_ifs at hu with heq
    · cases hu
      refine .inl (.of_no_child fun v => ?_)
      rw [hphase]
      cases v <;> rfl
    · refine .inr ⟨hu, fun w c hw => ?_⟩
      rw [ChildAt, hknown]
      split_ifs with hc
      · subst hc
        refine .inr ⟨hslot (h.childAt hu hw) ?_, by rw [known_of_tasks ht]; rfl⟩
        have hold := h.childAt hu hw
        rw [ChildAt, known_of_tasks ht] at hold
        have hn : task.n = arg task'.n w := hold.2.2.1
        rw [(h.owner_eq hu hw ht).2, Memory.read, hu, hn] at hstored
        exact hstored
      · exact .inl rfl

theorem spawn_tasks (ht : m.tasks t = some task) (hc : m.tasks c = some child) (hne : t ≠ c)
    (phase : Phase) (u : Nat) :
    ((m.spawn c).modify t fun task => { task with phase := phase }).tasks u =
      if u = t then some { task with phase := phase } else
        if u = c then some { child with phase := .execute } else m.tasks u := by
  rw [Memory.spawn, modify_tasks, modify_tasks, modify_tasks, if_neg hne, ht, hc]
  rfl

/-- The child for `v` is spawned. -/
theorem Inv.spawn (h : Inv n₀ m) (ht : m.tasks t = some task) (hc : task.phase.child v = some c)
    (hnot : task.phase.spawned v = false) {phase : Phase} (hchild : ∀ w, phase.child w = task.phase.child w)
    (hspawned : ∀ w, phase.spawned w = (decide (w = v) || task.phase.spawned w))
    (hcount : ∀ a b, task.phase ≠ .set_ref_count a b) :
    Inv n₀ ((m.spawn c).modify t fun task => { task with phase := phase }) := by
  have hne : t ≠ c := ((h.family t task ht).large v c hc).1.ne
  have hrunning : ∀ {phase : Phase}, phase.child v = some c → phase ≠ .spawn ∧ phase ≠ .complete := by
    intro phase hphase
    constructor <;> rintro rfl <;> cases v <;> cases hphase
  obtain ⟨child, hchild', hallocated⟩ := h.allocated ht hc hnot
  have hslot := h.childAt ht hc
  rw [ChildAt, known_of_tasks hchild'] at hslot
  obtain ⟨hparent, hsum, hn, -, -⟩ := hslot
  have htasks := spawn_tasks ht hchild' hne phase
  generalize hm' : ((m.spawn c).modify t fun task => { task with phase := phase }) = m' at htasks
  have hnext : m'.next = m.next := hm' ▸ rfl
  have hknown : ∀ u, m'.known u =
      if u = c then some { child.known with allocated := false, complete := false } else m.known u := by
    intro u
    rw [Memory.known, htasks]
    split_ifs with hut huc huc
    · exact absurd (hut.symm.trans huc) hne
    · obtain ⟨hspawn, hcomplete⟩ := hrunning hc
      obtain ⟨hspawn', hcomplete'⟩ := hrunning ((hchild v).trans hc)
      rw [hut, known_of_tasks ht]
      simp [FibTask.known, hspawn, hcomplete, hspawn', hcomplete']
    · rfl
    · rfl
  have hroot : c ≠ 0 := Nat.ne_zero_of_lt ((h.family t task ht).large v c hc).1
  refine h.of_changes hnext.ge ?_ ?_ ?_ ?_ ?_
  · intro u hu
    rw [hnext] at hu
    have hlt := h.lt_next ht
    have hlt' := h.lt_next hchild'
    rw [htasks, if_neg (by omega), if_neg (by omega)]
    exact h.fresh u hu
  · rw [hknown, if_neg hroot.symm, ← hm']
    exact h.root
  · intro u task' hu
    rw [htasks] at hu
    split_ifs at hu with hut huc
    · cases hu
      exact .inl ⟨task, hut ▸ ht, rfl⟩
    · cases hu
      exact .inl ⟨child, huc ▸ hchild', rfl⟩
    · exact .inl ⟨task', hu, rfl⟩
  · intro q parent w u hq hw hu
    rw [htasks]
    split_ifs with hqt hqc
    · rw [hqt, ht] at hq
      cases hq
      exact ⟨_, rfl, (hchild w).trans hw⟩
    · rw [hqc, hchild'] at hq
      cases hq
      rw [hallocated] at hw
      cases w <;> cases hw
    · exact ⟨parent, hq, hw⟩
  · intro u task' hu
    rw [htasks] at hu
    split_ifs at hu with hut huc
    · cases hu
      subst hut
      have hfam := h.family u task ht
      refine .inl ⟨fun w d hw => hnext ▸ hfam.large w d (hchild w ▸ hw), fun w d hw => ?_, fun a b ha hb => ?_⟩
      · rw [hchild] at hw
        by_cases hwv : w = v
        · subst hwv
          obtain rfl : c = d := Option.some.inj (hc.symm.trans hw)
          rw [ChildAt, hknown, if_pos rfl]
          exact ⟨hparent, hsum, hn, by simp [hspawned], fun hfalse => by cases hfalse⟩
        · have hdc : d ≠ c := h.sibling_ne ht hw hc hwv
          have hold := h.childAt ht hw
          rw [ChildAt] at hold ⊢
          rw [hknown, if_neg hdc]
          simpa [hspawned, hwv] using hold
      · rw [hchild] at ha hb
        obtain ⟨hab, hcount'⟩ := hfam.count a b ha hb
        refine ⟨hab, fun _ => ?_⟩
        have hsome : ∀ d, (m'.known d).isSome = (m.known d).isSome := by
          intro d
          rw [hknown]
          split_ifs with hdc
          · rw [hdc, known_of_tasks hchild']
            rfl
          · rfl
        rw [alive, hsome, hsome]
        exact hcount' (hcount a b)
    · cases hu
      refine .inl (.of_no_child fun w => ?_)
      cases w <;> rfl
    · refine .inr ⟨hu, fun w d hw => .inl ?_⟩
      have hdc := h.child_ne hu hw hchild' fun heq => hut (Option.some.inj (hparent.symm.trans heq)).symm
      rw [hknown, if_neg hdc]

/-- A child as it was allocated. -/
def forked (t : Nat) (n : Int64) (v : Local) : FibTask := ⟨arg n v, .frame t v, some t, 0, .spawn, fun _ => none⟩

theorem fork_tasks (ht : m.tasks t = some task) (hlt : t < m.next) (u : Nat) :
    (m.fork t task.n).tasks u =
      if u = t then some { task with phase := .set_ref_count m.next (m.next + 1), frame := fun _ => none } else
        if u = m.next + 1 then some (forked t task.n .y) else
          if u = m.next then some (forked t task.n .x) else m.tasks u := by
  rw [Memory.fork, modify_tasks]
  simp only [Memory.allocate_child, Function.update_apply]
  rw [if_neg (show ¬ t = m.next + 1 by omega), if_neg (show ¬ t = m.next by omega), ht]
  rfl

/-- The children are allocated. -/
theorem Inv.fork (h : Inv n₀ m) (ht : m.tasks t = some task) (hphase : task.phase = .execute)
    (hn : ¬ task.n < CutOff) :
    Inv n₀ (m.fork t task.n) := by
  have hlt : t < m.next := h.lt_next ht
  have htasks := fork_tasks ht hlt
  generalize hm' : m.fork t task.n = m' at htasks
  have hnext : m'.next = m.next + 1 + 1 := hm' ▸ rfl
  have hknown : ∀ u, m'.known u = if u = m.next + 1 then some (forked t task.n .y).known
      else if u = m.next then some (forked t task.n .x).known else m.known u := by
    intro u
    rw [Memory.known, htasks]
    split_ifs with hut hy hx hy hx
    · omega
    · omega
    · rw [hut, known_of_tasks ht]
      simp [FibTask.known, hphase]
    · rfl
    · rfl
    · rfl
  have hknown_old : ∀ u, u < m.next → m'.known u = m.known u := by
    intro u hu
    rw [hknown, if_neg (by omega), if_neg (by omega)]
  refine h.of_changes (by omega) ?_ ?_ ?_ ?_ ?_
  · intro u hu
    rw [hnext] at hu
    rw [htasks, if_neg (by omega), if_neg (by omega), if_neg (by omega)]
    exact h.fresh u (by omega)
  · rw [hknown_old 0 (Nat.zero_lt_of_lt hlt), ← hm']
    exact h.root
  · intro u task' hu
    rw [htasks] at hu
    split_ifs at hu with hut hy hx
    · cases hu
      exact .inl ⟨task, hut ▸ ht, rfl⟩
    · cases hu
      exact .inr (.inr ⟨t, _, .y, rfl, by rw [htasks, if_pos rfl], by rw [hy]; rfl⟩)
    · cases hu
      exact .inr (.inr ⟨t, _, .x, rfl, by rw [htasks, if_pos rfl], by rw [hx]; rfl⟩)
    · exact .inl ⟨task', hu, rfl⟩
  · intro q parent w u hq hw hu
    rw [htasks]
    have hql := h.lt_next hq
    split_ifs with hqt hy hx
    · rw [hqt, ht] at hq
      cases hq
      rw [hphase] at hw
      cases w <;> cases hw
    · omega
    · omega
    · exact ⟨parent, hq, hw⟩
  · intro u task' hu
    rw [htasks] at hu
    split_ifs at hu with hut hy hx
    · cases hu
      subst hut
      refine .inl ⟨fun w d hw => ?_, fun w d hw => ?_, fun a b ha hb => ?_⟩
      · rw [hnext]
        cases w <;> cases hw
        · exact ⟨hlt, by omega, hn⟩
        · exact ⟨by omega, by omega, hn⟩
      · rw [ChildAt, hknown]
        cases w <;> cases hw
        · rw [if_neg (by omega), if_pos rfl]
          exact ⟨rfl, rfl, rfl, rfl, fun hfalse => by cases hfalse⟩
        · rw [if_pos rfl]
          exact ⟨rfl, rfl, rfl, rfl, fun hfalse => by cases hfalse⟩
      · cases ha
        cases hb
        exact ⟨by omega, fun hne => absurd rfl hne⟩
    · cases hu
      refine .inl (.of_no_child fun w => ?_)
      cases w <;> rfl
    · cases hu
      refine .inl (.of_no_child fun w => ?_)
      cases w <;> rfl
    · exact .inr ⟨hu, fun w d hw => .inl (hknown_old d ((h.family u task' hu).large w d hw).2.1)⟩

theorem complete_root_tasks (hparent : task.parent = none) (u : Nat) :
    (m.complete t task).tasks u = if u = t then none else m.tasks u := by
  rw [Memory.complete, hparent]
  exact Function.update_apply ..

theorem complete_tasks (hparent : task.parent = some p) (hp : m.tasks p = some parent) (hne : p ≠ t)
    (hcount : 2 ≤ parent.ref_count) (u : Nat) :
    (m.complete t task).tasks u =
      if u = p then some { parent with ref_count := parent.ref_count - 1 } else
        if u = t then none else m.tasks u := by
  rw [Memory.complete, hparent, modify_tasks]
  simp only [Function.update_apply]
  rw [if_neg hne, hp, Option.map_some, if_neg (show ¬ parent.ref_count = 1 by omega)]

/-- A complete task is destroyed, and its parent has one task less to wait for. -/
theorem Inv.destroy (h : Inv n₀ m) (ht : m.tasks t = some task) (hphase : task.phase = .complete) :
    Inv n₀ (m.complete t task) := by
  have hnochild : ∀ w, task.phase.child w = none := by
    rw [hphase]
    rintro ⟨⟩ <;> rfl
  have hkeeps : ∀ q parent w u, m.tasks q = some parent → parent.phase.child w = some u → q ≠ t := by
    rintro q parent w u hq hw rfl
    rw [ht] at hq
    cases hq
    rw [hnochild] at hw
    cases hw
  obtain ⟨hnone, rfl, -, -⟩ | ⟨p, parent, v, hparent, hp, hv, hsum, -, hlt⟩ := h.sum_cases ht
  · have htasks : ∀ u, (m.complete 0 task).tasks u = if u = 0 then none else m.tasks u := complete_root_tasks hnone
    have hnext : (m.complete 0 task).next = m.next := by rw [Memory.complete, hnone]
    refine h.of_changes hnext.ge ?_ ?_ ?_ ?_ ?_
    · intro u hu
      rw [hnext] at hu
      rw [htasks, h.fresh u hu, ite_self]
    · obtain ⟨-, -, -, -, hvalue⟩ := known_of_tasks ht ▸ h.root
      rw [Memory.known, htasks, if_pos rfl, Memory.complete, hnone]
      exact ⟨rfl, hvalue (decide_eq_true hphase)⟩
    · intro u task' hu
      rw [htasks] at hu
      split_ifs at hu
      exact .inl ⟨task', hu, rfl⟩
    · intro q parent w u hq hw hu
      rw [htasks, if_neg (hkeeps q parent w u hq hw)]
      exact ⟨parent, hq, hw⟩
    · intro u task' hu
      rw [htasks] at hu
      split_ifs at hu
      refine .inr ⟨hu, fun w d hw => .inl ?_⟩
      have hne := h.child_ne hu hw ht (by simp [hnone])
      rw [Memory.known, htasks, if_neg hne, Memory.known]
  · obtain ⟨hspawned, hcount, hready⟩ := h.counted hp hv ht (by simp [hphase])
    have htasks := complete_tasks hparent hp hlt.ne hcount
    have hnext : (m.complete t task).next = m.next := by rw [Memory.complete, hparent]; rfl
    have hknown : ∀ u, u ≠ t → (m.complete t task).known u = m.known u := by
      intro u hu
      rw [Memory.known, htasks, if_neg hu]
      split_ifs with hup
      · rw [hup, known_of_tasks hp]
        rfl
      · rfl
    have hgone : (m.complete t task).known t = none := by
      rw [Memory.known, htasks, if_neg hlt.ne', if_pos rfl]
      rfl
    refine h.of_changes hnext.ge ?_ ?_ ?_ ?_ ?_
    · intro u hu
      have hlt := h.lt_next hp
      rw [hnext] at hu
      rw [htasks, if_neg (by omega), h.fresh u hu, ite_self]
    · rw [hknown 0 (by omega), Memory.complete, hparent]
      exact h.root
    · intro u task' hu
      rw [htasks] at hu
      split_ifs at hu with hup hut
      · cases hu
        exact .inl ⟨parent, hup ▸ hp, rfl⟩
      · exact .inl ⟨task', hu, rfl⟩
    · intro q parent' w u hq hw hu
      rw [htasks, if_neg (hkeeps q parent' w u hq hw)]
      split_ifs with hqp
      · rw [hqp, hp] at hq
        cases hq
        exact ⟨_, rfl, hw⟩
      · exact ⟨parent', hq, hw⟩
    · intro u task' hu
      rw [htasks] at hu
      split_ifs at hu with hup hut
      · cases hu
        subst hup
        have hfam := h.family u parent hp
        refine .inl ⟨fun w d hw => hnext ▸ hfam.large w d hw, fun w d hw => ?_, fun a b ha hb => ?_⟩
        · by_cases hwv : w = v
          · subst hwv
            obtain rfl : t = d := Option.some.inj (hv.symm.trans hw)
            rw [ChildAt, hgone]
            have hold := h.childAt hp hv
            rw [ChildAt, known_of_tasks ht] at hold
            exact ⟨hspawned, hold.2.2.2.2 (decide_eq_true hphase)⟩
          · have hold : ChildAt m u parent w d := h.childAt hp hw
            rw [ChildAt, hknown d (h.sibling_ne hp hw hv hwv)]
            exact hold
        · obtain ⟨hab, hcount'⟩ := hfam.count a b ha hb
          refine ⟨hab, fun _ => ?_⟩
          have hcount' := hcount' (hready a b)
          have hsome : (m.known t).isSome.toNat = 1 := by
            rw [known_of_tasks ht]
            rfl
          cases v with
          | x =>
            obtain rfl : a = t := Option.some.inj (ha.symm.trans hv)
            rw [alive, hsome] at hcount'
            rw [alive, hgone, hknown b hab.symm]
            simp only [Option.isSome_none, Bool.toNat_false]
            omega
          | y =>
            obtain rfl : b = t := Option.some.inj (hb.symm.trans hv)
            rw [alive, hsome] at hcount'
            rw [alive, hgone, hknown a hab]
            simp only [Option.isSome_none, Bool.toNat_false]
            omega
      · refine .inr ⟨hu, fun w d hw => .inl (hknown d (h.child_ne hu hw ht ?_))⟩
        rw [hparent]
        exact fun heq => hup (Option.some.inj heq).symm

theorem SerialFib_of_not_lt {n : Int64} (hn : ¬ n < CutOff) : SerialFib n = SerialFib (n - 1) + SerialFib (n - 2) := by
  rw [SerialFib, if_neg]
  intro hlt
  rw [Int64.lt_iff_toInt_lt] at hn hlt
  exact hn (hlt.trans (by decide))

/-- What a task sums is its number, and both children are gone. -/
theorem Inv.sum_eq (h : Inv n₀ m) {a b : Nat} {x y : Int64} (ht : m.tasks t = some task)
    (hphase : task.phase = .wait a b) (hcount : task.ref_count = 1) (hx : task.frame .x = some x)
    (hy : task.frame .y = some y) : m.tasks a = none ∧ m.tasks b = none ∧ x + y = SerialFib task.n := by
  have ha : task.phase.child .x = some a := by rw [hphase]; rfl
  have hb : task.phase.child .y = some b := by rw [hphase]; rfl
  obtain ⟨ha', hb', hvalue⟩ := h.waited ht ha hb (by simp [hphase]) hcount
  refine ⟨ha', hb', ?_⟩
  rw [SerialFib_of_not_lt ((h.family t task ht).large _ a ha).2.2]
  rw [hvalue] at hx hy
  cases hx
  cases hy
  rfl

/-- Every action keeps the invariant. -/
theorem Inv.acts (h : Inv n₀ m) (ht : m.tasks t = some task) (hacts : Acts m t task m') : Inv n₀ m' := by
  cases hacts with
  | small hphase hn hstore =>
    obtain ⟨hinv, hread, ht', -⟩ := h.store ht hstore
    refine hinv.finish ht' (by simp [hphase]) hread ?_ ⟨rfl, rfl, rfl⟩ rfl
    rw [hphase]
    rintro ⟨⟩ c ⟨⟩
  | fork hphase hn => exact h.fork ht hphase hn
  | @set_ref_count a b hphase =>
    have hfam := h.family t task ht
    have hchild : ∀ w, (Phase.spawn_b a b).child w = task.phase.child w := by
      rw [hphase]
      rintro ⟨⟩ <;> rfl
    have hspawned : ∀ w, (Phase.spawn_b a b).spawned w = task.phase.spawned w := by
      rw [hphase]
      rintro ⟨⟩ <;> rfl
    refine h.modify ht ?_ hchild ⟨fun w c hw => hfam.large w c (hchild w ▸ hw), fun w c hw => ?_,
      fun c d hc hd => ?_⟩
    · simp [FibTask.known, hphase]
    · have hold := h.childAt ht (hchild w ▸ hw)
      rw [ChildAt] at hold ⊢
      simpa only [hspawned] using hold
    · cases hc
      cases hd
      have ha : task.phase.child .x = some a := by rw [hphase]; rfl
      have hb : task.phase.child .y = some b := by rw [hphase]; rfl
      refine ⟨(hfam.count a b ha hb).1, fun _ => ?_⟩
      obtain ⟨child, hchild, -⟩ := h.allocated ht ha (by rw [hphase]; rfl)
      obtain ⟨child', hchild', -⟩ := h.allocated ht hb (by rw [hphase]; rfl)
      rw [alive, known_of_tasks hchild, known_of_tasks hchild']
      rfl
  | @spawn_b a b hphase =>
    have hb : task.phase.child .y = some b := by rw [hphase]; rfl
    refine h.spawn ht hb (by rw [hphase]; rfl) ?_ ?_ (by simp [hphase])
    · rw [hphase]
      rintro ⟨⟩ <;> rfl
    · rw [hphase]
      rintro ⟨⟩ <;> rfl
  | @spawn_a a b hphase =>
    have ha : task.phase.child .x = some a := by rw [hphase]; rfl
    refine h.spawn ht ha (by rw [hphase]; rfl) ?_ ?_ (by simp [hphase])
    · rw [hphase]
      rintro ⟨⟩ <;> rfl
    · rw [hphase]
      rintro ⟨⟩ <;> rfl
  | @sum a b x y m₁ hphase hcount hx hy hstore =>
    obtain ⟨ha', hb', hsum⟩ := h.sum_eq ht hphase hcount hx hy
    obtain ⟨hinv, hread, ht', hknown⟩ := h.store ht (hsum ▸ hstore)
    refine hinv.finish ht' (by simp [hphase]) hread ?_ ⟨rfl, rfl, rfl⟩ rfl
    intro v c hc
    have hgone : m.tasks c = none := by
      rw [hphase] at hc
      cases v
      · exact Option.some.inj hc ▸ ha'
      · exact Option.some.inj hc ▸ hb'
    have hsame := hknown c
    rw [Memory.known, Memory.known, hgone] at hsame
    exact Option.map_eq_none_iff.mp hsame
  | complete hphase => exact h.destroy ht hphase

theorem ParallelFib_tasks (n₀ : Int64) (t : Nat) :
    (ParallelFib n₀).tasks t =
      if t = 0 then some ⟨n₀, .result, none, 0, .execute, fun _ => none⟩ else none := by
  simp only [ParallelFib, Function.update_apply]

theorem Inv.start (n₀ : Int64) : Inv n₀ (ParallelFib n₀) where
  fresh := by
    intro t ht
    rw [ParallelFib_tasks, if_neg (Nat.ne_zero_of_lt ht)]
  root := ⟨rfl, rfl, rfl, rfl, fun hfalse => by cases hfalse⟩
  owned := by
    intro t task ht
    rw [ParallelFib_tasks] at ht
    split_ifs at ht with hzero
    cases ht
    exact .inl ⟨rfl, hzero⟩
  family := by
    intro t task ht
    rw [ParallelFib_tasks] at ht
    split_ifs at ht with hzero
    cases ht
    exact .of_no_child fun v => by cases v <;> rfl

end accelerators.fib_task
