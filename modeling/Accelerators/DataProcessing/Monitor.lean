import Accelerators.DataProcessing
import Accelerators.Locks.Threads

open interleaving locks transition_system

namespace accelerators.data_processing

variable {T : Type} [DecidableEq T] {spurious : Prop} {m m' : Memory T} {t u : T} {c : Call} {rest : List Call}
  {p p' : Phase} {program : T → List Call} {s s' : Config T Call Phase (Memory T)}

/-- The mutex is held from `lock` to `unlock`, except in `wait`. -/
def held (_ : Call) : Phase → List (Request Unit Mode)
  | .loop | .process_data | .unlock | .set | .unlockGuard => [lock]
  | .entry | .wait | .notify_one | .returned => []

theorem disciplined : Disciplined (code spurious : Code T Call Phase (Memory T)) Memory.mut_ (fun _ _ => []) held where
  entry := fun _ => rfl
  finish := by
    rintro c p rfl
    rfl
  effect := by
    intro t c m p m' p' hacts
    cases c with
    | wait_for_data_to_process =>
      cases hacts with
      | lock hgrant => exact .grant hgrant (.refl _)
      | ready hready => exact .none (.refl _)
      | wait hready => exact .release List.mem_cons_self (by simp [held])
      | wakeUp hspurious ht => exact .none (.refl _)
      | relock ht hgrant => exact .grant hgrant (.refl _)
      | process_data => exact .none (.refl _)
      | unlock => exact .release List.mem_cons_self (by simp [held])
    | prepare_data_for_processing =>
      cases hacts with
      | lock hgrant => exact .grant hgrant (.refl _)
      | set => exact .none (.refl _)
      | unlock => exact .release List.mem_cons_self (by simp [held])
      | notify_one hnotify => exact .none (.refl _)
  kept_others := fun _ _ _ => rfl

theorem accounts (h : (code spurious).Reachable program start s) :
    Accounts s.memory.mut_ (holdings held s.threads) :=
  disciplined.accounts (fun _ _ => Holders.count_free) h

/-- The flag is never reset. -/
theorem data_ready_mono (h : acts spurious t c m p m' p') (hready : m.data_ready = true) : m'.data_ready = true := by
  cases c <;> cases h <;> first | rfl | exact hready

/-- A thread blocks itself only. -/
theorem mem_cond_of_acts (h : acts spurious t c m p m' p') (hne : u ≠ t) (hu : u ∈ m'.cond) : u ∈ m.cond := by
  cases c with
  | wait_for_data_to_process =>
    cases h with
    | wait hready => exact (Finset.mem_insert.mp hu).resolve_left hne
    | wakeUp hspurious ht => exact Finset.mem_of_mem_erase hu
    | _ => exact hu
  | prepare_data_for_processing =>
    cases h with
    | notify_one hnotify => exact hnotify.subset hu
    | _ => exact hu

/-- The phases of a call. -/
def Within : Call → Phase → Prop
  | .wait_for_data_to_process, .entry | .wait_for_data_to_process, .loop | .wait_for_data_to_process, .wait
  | .wait_for_data_to_process, .process_data | .wait_for_data_to_process, .unlock
  | .wait_for_data_to_process, .returned => True
  | .prepare_data_for_processing, .entry | .prepare_data_for_processing, .set
  | .prepare_data_for_processing, .unlockGuard | .prepare_data_for_processing, .notify_one
  | .prepare_data_for_processing, .returned => True
  | _, _ => False

theorem within_of_acts (h : acts spurious t c m p m' p') : Within c p' := by
  cases c <;> cases h <;> exact trivial

theorem within_of_reachable (h : (code spurious).Reachable program start s) :
    ∀ t c rest p, s.threads t = ⟨c :: rest, p⟩ → Within c p := by
  refine h.locally (fun _ c p _ => Within c p) ?_ ?_ (fun _ _ _ _ _ _ _ _ _ _ _ _ hat => hat)
  · intro t c m
    cases c <;> exact trivial
  · intro s s' t c rest p p' _ hturn _
    exact within_of_acts hturn.acts

/-- The phases that a thread comes to only after the flag is set. -/
def Ready (p : Phase) : Prop :=
  p = .process_data ∨ p = .unlock ∨ p = .unlockGuard ∨ p = .notify_one ∨ p = .returned

theorem ready_of_acts (h : acts spurious t c m p m' p') (hp : Ready p → m.data_ready = true) (hp' : Ready p') :
    m'.data_ready = true := by
  cases c with
  | wait_for_data_to_process =>
    cases h with
    | ready hready => exact hready
    | process_data => exact hp (.inl rfl)
    | unlock => exact hp (.inr (.inl rfl))
    | _ => simp [Ready] at hp'
  | prepare_data_for_processing =>
    cases h with
    | set => rfl
    | unlock => exact hp (.inr (.inr (.inl rfl)))
    | notify_one hnotify => exact hp (.inr (.inr (.inr (.inl rfl))))
    | lock hgrant => simp [Ready] at hp'

theorem ready_of_reachable (h : (code spurious).Reachable program start s) :
    ∀ t c rest p, s.threads t = ⟨c :: rest, p⟩ → Ready p → s.memory.data_ready = true := by
  refine h.locally (fun _ _ p m => Ready p → m.data_ready = true) ?_ ?_ ?_
  · intro t c m hp
    simp [code, Ready] at hp
  · intro s s' t c rest p p' _ hturn hp
    exact ready_of_acts hturn.acts hp
  · intro s s' t c rest p p' hturn u c' q _ hq hready
    exact data_ready_mono hturn.acts (hq hready)

/-- As long as there are no data, no call is over. -/
theorem data_ready_or_calls_eq (h : (code spurious).Reachable program start s) :
    s.memory.data_ready = true ∨ s.history = [] ∧ ∀ t, (s.threads t).calls = program t := by
  refine h.invariant (fun s => s.memory.data_ready = true ∨ s.history = [] ∧ ∀ t, (s.threads t).calls = program t)
    (.inr ⟨rfl, fun t => rfl⟩) ?_
  rintro s s' hreachable hs hstep
  cases hstep with
  | @inside t c rest p p' m' hthread hacts hover =>
    refine hs.imp (data_ready_mono hacts) (And.imp_right fun hcalls u => ?_)
    dsimp only
    obtain rfl | hne := eq_or_ne u t
    · rw [Function.update_self, ← hcalls u, hthread]
    · rw [Function.update_of_ne hne, hcalls u]
  | @leave t c rest p p' m' hthread hacts hover =>
    have hp := ready_of_reachable hreachable t c rest p hthread
    exact .inl (ready_of_acts hacts hp (.inr (.inr (.inr (.inr hover)))))

/-- A thread gets blocked only when it finds no data. -/
theorem blocked_of_acts (h : acts spurious t c m p m' p')
    (hblocked : t ∈ m.cond → c = .wait_for_data_to_process ∧ p = .wait) (ht : t ∈ m'.cond) :
    c = .wait_for_data_to_process ∧ p' = .wait ∧ m.data_ready = false := by
  cases c with
  | wait_for_data_to_process =>
    cases h with
    | wait hready => exact ⟨rfl, rfl, hready⟩
    | wakeUp hspurious ht' => exact absurd ht (Finset.notMem_erase t m.cond)
    | relock ht' hgrant => exact absurd ht ht'
    | _ => cases (hblocked ht).2
  | prepare_data_for_processing =>
    cases h with
    | notify_one hnotify => cases (hblocked (hnotify.subset ht)).1
    | _ => cases (hblocked ht).1

/-- A blocked thread is in the first of its calls. -/
theorem blocked_of_reachable (h : (code spurious).Reachable program start s) :
    ∀ t ∈ s.memory.cond, ∃ rest, program t = .wait_for_data_to_process :: rest ∧
      s.threads t = ⟨.wait_for_data_to_process :: rest, .wait⟩ := by
  refine h.invariant (fun s => ∀ t ∈ s.memory.cond, ∃ rest, program t = .wait_for_data_to_process :: rest ∧
    s.threads t = ⟨.wait_for_data_to_process :: rest, .wait⟩) (fun t ht => by simp [Code.start, start] at ht) ?_
  intro s s' hreachable hs hstep u hu
  obtain ⟨t, c, rest, p, p', hturn⟩ := hstep.turn
  obtain rfl | hne := eq_or_ne u t
  · have hblocked : u ∈ s.memory.cond → c = .wait_for_data_to_process ∧ p = .wait := by
      intro hu'
      obtain ⟨rest', -, hthread⟩ := hs u hu'
      rw [hturn.thread, Thread.mk.injEq, List.cons.injEq] at hthread
      exact ⟨hthread.1.1, hthread.2⟩
    obtain ⟨rfl, rfl, hready⟩ := blocked_of_acts hturn.acts hblocked hu
    obtain hready' | ⟨-, hcalls⟩ := data_ready_or_calls_eq hreachable
    · rw [hready] at hready'
      cases hready'
    · obtain ⟨-, hafter⟩ | ⟨hover, -⟩ := hturn.after
      · exact ⟨rest, by rw [← hcalls u, hturn.thread], hafter⟩
      · cases hover
  · rw [hturn.others u hne]
    exact hs u (mem_cond_of_acts hturn.acts hne hu)

/-- Without spurious wakeups a thread is woken up by a notification. -/
theorem data_ready_of_wakeup (h : (code False).Reachable program start s) (hthread : s.threads t = ⟨c :: rest, p⟩)
    (hacts : acts False t c s.memory p m' p') (hu : u ∈ s.memory.cond) (hu' : u ∉ m'.cond) :
    s.memory.data_ready = true := by
  have hready := ready_of_reachable h t c rest p hthread
  cases c with
  | wait_for_data_to_process =>
    cases hacts with
    | wait hready => exact absurd (Finset.mem_insert_of_mem hu) hu'
    | wakeUp hspurious ht => exact hspurious.elim
    | _ => exact absurd hu hu'
  | prepare_data_for_processing =>
    cases hacts with
    | notify_one hnotify => exact hready (.inr (.inr (.inr (.inl rfl))))
    | _ => exact absurd hu hu'

/-- A thread that has been woken up finds data. -/
theorem data_ready_of_woken (h : (code False).Reachable program start s) :
    ∀ t c rest, s.threads t = ⟨c :: rest, .wait⟩ → t ∉ s.memory.cond → s.memory.data_ready = true := by
  refine h.invariant (fun s => ∀ t c rest, s.threads t = ⟨c :: rest, .wait⟩ → t ∉ s.memory.cond →
    s.memory.data_ready = true) (fun t c rest hthread => by cases (Thread.mk.inj hthread).2) ?_
  intro s s' hreachable ih hstep u c' rest' hthread hu
  obtain ⟨t, c, rest, p, p', hturn⟩ := hstep.turn
  by_cases hblocked : u ∈ s.memory.cond
  · exact data_ready_mono hturn.acts (data_ready_of_wakeup hreachable hturn.thread hturn.acts hblocked hu)
  · obtain rfl | hne := eq_or_ne u t
    · obtain ⟨rfl, rfl, rfl⟩ := hturn.eq_of_thread hthread (by simp [code])
      have hacts := hturn.acts
      generalize s'.memory = m' at hacts hu
      cases c' with
      | wait_for_data_to_process =>
        cases hacts with
        | wait hready => exact absurd (Finset.mem_insert_self _ _) hu
        | wakeUp hspurious ht => exact hspurious.elim
      | prepare_data_for_processing => cases hacts
    · exact data_ready_mono hturn.acts (ih u c' rest' ((hturn.others u hne).symm.trans hthread) hblocked)

/-- A call of `prepare_data_for_processing` has set the flag. -/
def Prepared (s : Config T Call Phase (Memory T)) : Prop :=
  (∃ t p, (t, .prepare_data_for_processing, p) ∈ s.history) ∨
    ∃ t rest p, s.threads t = ⟨.prepare_data_for_processing :: rest, p⟩ ∧ Ready p

theorem ready_of_prepareActs (h : PrepareActs t m p m' p') (hp : Ready p) : Ready p' := by
  cases h with
  | lock hgrant | set => simp [Ready] at hp
  | unlock | notify_one hnotify => simp [Ready]

theorem Prepared.step (h : Prepared s) (hstep : (code spurious).Step s s') : Prepared s' := by
  cases hstep with
  | @inside t c rest p p' m' hthread hacts hover =>
    refine h.imp_right ?_
    rintro ⟨u, rest', q, hthread', hq⟩
    dsimp only
    obtain rfl | hne := eq_or_ne u t
    · rw [hthread, Thread.mk.injEq, List.cons.injEq] at hthread'
      obtain ⟨⟨rfl, rfl⟩, rfl⟩ := hthread'
      exact ⟨u, rest, p', Function.update_self .., ready_of_prepareActs hacts hq⟩
    · exact ⟨u, rest', q, by rw [Function.update_of_ne hne, hthread'], hq⟩
  | @leave t c rest p p' m' hthread hacts hover =>
    obtain ⟨u, q, hmem⟩ | ⟨u, rest', q, hthread', hq⟩ := h
    · exact .inl ⟨u, q, List.mem_append_left _ hmem⟩
    · obtain rfl | hne := eq_or_ne u t
      · rw [hthread, Thread.mk.injEq, List.cons.injEq] at hthread'
        obtain ⟨⟨rfl, rfl⟩, rfl⟩ := hthread'
        exact .inl ⟨u, p', List.mem_append_right _ (List.mem_singleton_self _)⟩
      · exact .inr ⟨u, rest', q, by dsimp only; rw [Function.update_of_ne hne, hthread'], hq⟩

/-- The flag is set by `prepare_data_for_processing` only. -/
theorem prepared_of_reachable (h : (code spurious).Reachable program start s) (hready : s.memory.data_ready = true) :
    Prepared s := by
  refine h.invariant (fun s => s.memory.data_ready = true → Prepared s) ?_ ?_ hready
  · rintro ⟨⟩
  · intro s s' hreachable ih hstep hready'
    by_cases hready : s.memory.data_ready = true
    · exact (ih hready).step hstep
    · obtain ⟨t, c, rest, p, p', hturn⟩ := hstep.turn
      obtain ⟨rfl, rfl⟩ : c = .prepare_data_for_processing ∧ p' = .unlockGuard := by
        have hacts := hturn.acts
        generalize s'.memory = m' at hacts hready'
        cases c <;> cases hacts <;> first | exact absurd hready' hready | exact ⟨rfl, rfl⟩
      obtain ⟨-, hafter⟩ | ⟨hover, -⟩ := hturn.after
      · exact .inr ⟨t, rest, .unlockGuard, hafter, by simp [Ready]⟩
      · cases hover

def Processing (s : Config T Call Phase (Memory T)) (t : T) : Prop :=
  ∃ rest, s.threads t = ⟨.wait_for_data_to_process :: rest, .process_data⟩

/-- Spurious wakeups or not, a thread that processes data has the mutex and nobody
    else does, and a call that does so or has done so comes after one that set the flag. -/
theorem process_data_safe (h : (code spurious).Reachable program start s) :
    (∀ t, Processing s t → s.memory.mut_ () = .exclusive t ∧
      ∀ u, u ≠ t → holdings held s.threads u = []) ∧
    ((∃ t, Processing s t ∨ ∃ p, (t, .wait_for_data_to_process, p) ∈ s.history) → Prepared s) := by
  constructor
  · rintro t ⟨rest, hthread⟩
    have ht : lock ∈ holdings held s.threads t := by simp [holdings, hthread, held]
    refine ⟨(accounts h).eq_exclusive ht, fun u hne => ?_⟩
    by_contra hheld
    obtain ⟨r, hr⟩ := List.exists_mem_of_ne_nil _ hheld
    exact hne ((accounts h).exclusion ht hr).1
  · rintro ⟨t, ⟨rest, hthread⟩ | ⟨p, hmem⟩⟩
    · exact prepared_of_reachable h (ready_of_reachable h t _ rest _ hthread (.inl rfl))
    · obtain hready | ⟨hhistory, -⟩ := data_ready_or_calls_eq h
      · exact prepared_of_reachable h hready
      · rw [hhistory] at hmem
        cases hmem

/-- One thread is to process what the other one prepares. -/
def handOver : Bool → List Call
  | true => [.prepare_data_for_processing]
  | false => [.wait_for_data_to_process]

theorem process_data_safe_handOver : ∃ s, Processing s false ∧ Prepared s ∧
    s.memory.mut_ () = .exclusive false ∧
    holdings held s.threads true = [] := by
  have hstart : Run (code True).Step 0 ((code True).start handOver start) _ := .refl _
  have hlock := hstart.tail (.inside (t := true) rfl (PrepareActs.lock trivial) (by simp [code]))
  have hset := hlock.tail (.inside (t := true) rfl PrepareActs.set (by simp [code]))
  have hunlock := hset.tail (.inside (t := true) rfl PrepareActs.unlock (by simp [code]))
  have hnotify := hunlock.tail (.leave (t := true) rfl (PrepareActs.notify_one (.nobody rfl)) rfl)
  have hlock' := hnotify.tail (.inside (t := false) rfl (WaitActs.lock trivial) (by simp [code]))
  have hready := hlock'.tail (.inside (t := false) rfl (WaitActs.ready rfl) (by simp [code]))
  obtain ⟨hexclusive, hprepared⟩ := process_data_safe ⟨_, hready⟩
  obtain ⟨hmutex, hothers⟩ := hexclusive false ⟨[], rfl⟩
  exact ⟨_, ⟨[], rfl⟩, hprepared ⟨false, .inl ⟨[], rfl⟩⟩, hmutex, hothers true (by decide)⟩

end accelerators.data_processing
