import Accelerators.DataProcessing.Monitor
import Accelerators.Interleaving.Progress

open interleaving locks transition_system

namespace accelerators.data_processing

variable {T : Type} [DecidableEq T] {m m' : Memory T} {t u : T} {c : Call} {rest : List Call} {p p' : Phase}
  {program : T → List Call} {s s' : Config T Call Phase (Memory T)} {kept : Finset T} {spurious : Prop}

/-- How many actions a thread is away from the end of its call, at most. -/
def Phase.rank (m : Memory T) (t : T) : Phase → Nat
  | .entry => 8
  | .set => 7
  | .unlockGuard => 6
  | .notify_one => 5
  | .loop => if m.data_ready then 3 else 7
  | .wait => if t ∈ m.cond then 5 else 4
  | .process_data => 2
  | .unlock => 1
  | .returned => 0

/-- And from the end of its program. -/
def rank (m : Memory T) (t : T) (thread : Thread Call Phase) : Nat :=
  match thread.calls with
  | [] => 0
  | _ :: rest => 8 * rest.length + thread.phase.rank m t

theorem Phase.rank_lt_of_acts (h : acts False t c m p m' p')
    (hwoken : p = .wait → t ∉ m.cond → m.data_ready = true) : p'.rank m' t < p.rank m t := by
  cases c with
  | wait_for_data_to_process =>
    cases h with
    | lock hgrant => simp only [Phase.rank]; split <;> omega
    | ready hready => simp [Phase.rank, hready]
    | wait hready => simp [Phase.rank, hready]
    | wakeUp hspurious ht => exact hspurious.elim
    | relock ht hgrant => simp [Phase.rank, ht, hwoken rfl ht]
    | process_data | unlock => simp [Phase.rank]
  | prepare_data_for_processing =>
    cases h <;> simp [Phase.rank]

theorem Phase.rank_le_of_acts (h : acts False t c m p m' p') (hne : u ≠ t) (q : Phase) :
    q.rank m' u ≤ q.rank m u := by
  have hready := data_ready_mono h
  have hcond := mem_cond_of_acts h hne
  cases q with
  | loop =>
    simp only [Phase.rank]
    by_cases hm : m.data_ready = true
    · simp [hm, hready hm]
    · rw [if_neg hm]
      split <;> omega
  | wait =>
    simp only [Phase.rank]
    by_cases hu : u ∈ m'.cond
    · simp [hu, hcond hu]
    · rw [if_neg hu]
      split <;> omega
  | _ => exact Nat.le_refl _

theorem rank_cons (m : Memory T) (t : T) (c : Call) (rest : List Call) (p : Phase) :
    rank m t ⟨c :: rest, p⟩ = 8 * rest.length + p.rank m t := rfl

theorem rank_entry (m : Memory T) (t : T) (calls : List Call) : rank m t ⟨calls, .entry⟩ = 8 * calls.length := by
  cases calls <;> rfl

theorem rank_turn_lt (h : (code False).Reachable program start s) (hturn : (code False).Turn s s' t c rest p p') :
    rank s'.memory t (s'.threads t) < rank s.memory t (s.threads t) := by
  have hlt := Phase.rank_lt_of_acts hturn.acts fun hp ht =>
    data_ready_of_woken h t c rest (by rw [hturn.thread, hp]) ht
  rw [hturn.thread, rank_cons]
  obtain ⟨-, hafter⟩ | ⟨-, hafter⟩ := hturn.after
  · rw [hafter, rank_cons]
    omega
  · have hentry : rank s'.memory t ⟨rest, (code False : Code T Call Phase (Memory T)).entry⟩ = 8 * rest.length :=
      rank_entry _ _ _
    rw [hafter, hentry]
    omega

theorem rank_others_le (h : acts False t c m p m' p') (hne : u ≠ t) (thread : Thread Call Phase) :
    rank m' u thread ≤ rank m u thread := by
  obtain ⟨calls, q⟩ := thread
  cases calls with
  | nil => exact Nat.le_refl _
  | cons c' rest' =>
    have hle := Phase.rank_le_of_acts h hne q
    rw [rank_cons, rank_cons]
    omega

variable [Fintype T]

def totalRank (s : Config T Call Phase (Memory T)) : Nat := ∑ t, rank s.memory t (s.threads t)

/-- Without spurious wakeups every action brings the threads closer to their end. -/
theorem totalRank_lt (h : (code False).Reachable program start s) (hstep : (code False).Step s s') :
    totalRank s' < totalRank s := by
  obtain ⟨t, c, rest, p, p', hturn⟩ := hstep.turn
  exact hturn.sum_rank_lt rank (rank_turn_lt h hturn) fun u hne => rank_others_le hturn.acts hne _

theorem totalRank_start (program : T → List Call) :
    totalRank ((code False).start program start) = ∑ t, 8 * (program t).length :=
  Finset.sum_congr rfl fun t _ => rank_entry _ t (program t)

/-- The threads whose first call is one that waits. -/
def waitFirst (program : T → List Call) : Finset T :=
  Finset.univ.filter fun t => (program t).head? = some .wait_for_data_to_process

/-- How many notifications there have been. -/
def notified (s : Config T Call Phase (Memory T)) : Nat :=
  s.history.countP fun e => e.2.1 == .prepare_data_for_processing

theorem cond_subset_waitFirst (h : (code False).Reachable program start s) : s.memory.cond ⊆ waitFirst program := by
  intro t ht
  obtain ⟨rest, hprogram, -⟩ := blocked_of_reachable h t ht
  simp [waitFirst, hprogram]

omit [Fintype T] in
theorem notified_eq_zero (h : (code False).Reachable program start s) (hready : ¬ s.memory.data_ready = true) :
    notified s = 0 := by
  rw [notified, ((data_ready_or_calls_eq h).resolve_left hready).1, List.countP_nil]

omit [Fintype T] in
/-- When there are data, the only threads to leave `cond` are those notified. -/
theorem card_cond_of_acts (h : acts False t c m p m' p') (hready : m.data_ready = true) :
    m'.cond = m.cond ∧ (p' = .returned → c = .wait_for_data_to_process) ∨
      c = .prepare_data_for_processing ∧ p' = .returned ∧ m'.cond.card = m.cond.card - 1 := by
  cases c with
  | wait_for_data_to_process =>
    cases h with
    | wait hready' => simp [hready] at hready'
    | wakeUp hspurious ht => exact hspurious.elim
    | _ => exact .inl ⟨rfl, fun _ => rfl⟩
  | prepare_data_for_processing =>
    cases h with
    | notify_one hnotify => exact .inr ⟨rfl, rfl, hnotify.card⟩
    | _ => exact .inl ⟨rfl, fun hp => by cases hp⟩

omit [Fintype T] in
theorem ready_of_return (h : acts spurious t c m p m' .returned) : Ready p := by
  cases c <;> cases h <;> simp [Ready]

/-- As long as somebody is blocked, every notification has woken up a thread. -/
theorem card_cond_le (h : (code False).Reachable program start s) (hcond : s.memory.cond.Nonempty) :
    s.memory.cond.card + notified s ≤ (waitFirst program).card := by
  refine h.invariant (fun s => s.memory.cond.Nonempty → s.memory.cond.card + notified s ≤ (waitFirst program).card)
    ?_ ?_ hcond
  · rintro ⟨t, ht⟩
    simp [Code.start, start] at ht
  · intro s s' hreachable ih hstep hcond'
    have hsubset := Finset.card_le_card (cond_subset_waitFirst (hreachable.tail hstep))
    have hpos := hcond'.card_pos
    cases hstep with
    | @inside t c rest p p' m' hthread hacts hover =>
      by_cases hready : s.memory.data_ready = true
      · obtain ⟨heq, -⟩ | ⟨-, hp', -⟩ := card_cond_of_acts hacts hready
        · dsimp only at hcond' ⊢
          rw [heq] at hcond' ⊢
          exact ih hcond'
        · exact absurd hp' hover
      · have hzero := notified_eq_zero hreachable hready
        rw [notified] at hzero ⊢
        dsimp only at hsubset ⊢
        omega
    | @leave t c rest p p' m' hthread hacts hover =>
      obtain rfl : p' = .returned := hover
      have hready := ready_of_reachable hreachable t c rest p hthread (ready_of_return hacts)
      dsimp only at hcond' hpos ⊢
      obtain ⟨heq, hwait⟩ | ⟨rfl, -, hcard⟩ := card_cond_of_acts hacts hready
      · obtain rfl := hwait rfl
        rw [heq] at hcond' ⊢
        simpa [notified] using ih hcond'
      · have hle := ih (Finset.card_pos.mp (by omega))
        simp only [notified, List.countP_append, List.countP_singleton, beq_self_eq_true, if_true] at hle ⊢
        omega

omit [Fintype T] in
/-- A thread with the mutex can go on. -/
theorem exists_step_of_holder (h : (code False).Reachable program start s) (hheld : holdings held s.threads t ≠ []) :
    ∃ s', (code False).Step s s' := by
  cases hthread : s.threads t with
  | mk calls p =>
    cases calls with
    | nil => simp [holdings, hthread] at hheld
    | cons c rest =>
      have hwithin := within_of_reachable h t c rest p hthread
      simp only [holdings, hthread] at hheld
      cases c with
      | wait_for_data_to_process =>
        cases p with
        | loop =>
          by_cases hready : s.memory.data_ready = true
          · exact Code.exists_step hthread (WaitActs.ready hready)
          · exact Code.exists_step hthread (WaitActs.wait (Bool.not_eq_true _ ▸ hready))
        | process_data => exact Code.exists_step hthread WaitActs.process_data
        | unlock => exact Code.exists_step hthread WaitActs.unlock
        | set | unlockGuard => exact hwithin.elim
        | _ => exact absurd rfl hheld
      | prepare_data_for_processing =>
        cases p with
        | set => exact Code.exists_step hthread PrepareActs.set
        | unlockGuard => exact Code.exists_step hthread PrepareActs.unlock
        | loop | process_data | unlock => exact hwithin.elim
        | _ => exact absurd rfl hheld

omit [Fintype T] in
/-- When no thread can go on, those that are not at their end are blocked. -/
theorem mem_cond_of_final (h : (code False).Reachable program start s) (hfinal : ∀ s', ¬ (code False).Step s s')
    (hcalls : (s.threads t).calls ≠ []) : t ∈ s.memory.cond := by
  have hgrant : Grantable s.memory.mut_ t lock := by
    by_contra hgrant
    obtain ⟨u, mode, hu⟩ := (accounts h).exists_holder hgrant
    obtain ⟨s', hstep⟩ := exists_step_of_holder h (List.ne_nil_of_mem hu)
    exact hfinal s' hstep
  cases hthread : s.threads t with
  | mk calls p =>
    cases calls with
    | nil => simp [hthread] at hcalls
    | cons c rest =>
      have hnone : ∀ m' p', ¬ acts False t c s.memory p m' p' := by
        intro m' p' hacts
        have hstep : ∃ s', (code False).Step s s' := Code.exists_step hthread hacts
        exact hstep.elim hfinal
      have hheld : holdings held s.threads t = [] := by
        by_contra hheld
        exact (exists_step_of_holder h hheld).elim hfinal
      simp only [holdings, hthread] at hheld
      have hover := h.not_over (by simp [code]) t
      have hwithin := within_of_reachable h t c rest p hthread
      cases c with
      | wait_for_data_to_process =>
        cases p with
        | entry => exact absurd (WaitActs.lock hgrant) (hnone _ _)
        | wait =>
          by_contra ht
          exact hnone _ _ (WaitActs.relock ht hgrant)
        | loop | process_data | unlock => cases hheld
        | returned => exact absurd (by rw [hthread]; rfl) hover
        | set | unlockGuard | notify_one => exact hwithin.elim
      | prepare_data_for_processing =>
        cases p with
        | entry => exact absurd (PrepareActs.lock hgrant) (hnone _ _)
        | notify_one =>
          obtain ⟨cond', hnotify⟩ := exists_notifyOne s.memory.cond
          exact absurd (PrepareActs.notify_one hnotify) (hnone _ _)
        | set | unlockGuard => cases hheld
        | returned => exact absurd (by rw [hthread]; rfl) hover
        | loop | wait | process_data | unlock => exact hwithin.elim

/-- How often the threads outside `kept` are still to prepare data. -/
def remaining (kept : Finset T) (calls : T → List Call) : Nat :=
  ∑ t ∈ keptᶜ, (calls t).count .prepare_data_for_processing

/-- At the end everybody who is not blocked has prepared all data. -/
theorem notified_of_final (h : (code False).Reachable program start s)
    (hfinal : ∀ s', ¬ (code False).Step s s') : notified s = remaining s.memory.cond program := by
  have hblocked : ∀ t ∈ s.memory.cond, (Code.done s t).count .prepare_data_for_processing = 0 := by
    intro t ht
    obtain ⟨rest, hprogram, hthread⟩ := blocked_of_reachable h t ht
    have happend := h.done_append_calls t
    rw [hprogram, hthread, List.append_left_eq_self] at happend
    rw [happend, List.count_nil]
  have hended : ∀ t ∈ s.memory.condᶜ, Code.done s t = program t := by
    intro t ht
    have hcalls : (s.threads t).calls = [] := by
      by_contra hcalls
      exact Finset.mem_compl.mp ht (mem_cond_of_final h hfinal hcalls)
    rw [← h.done_append_calls t, hcalls, List.append_nil]
  calc notified s = ∑ t, (Code.done s t).count .prepare_data_for_processing :=
        Code.countP_history s.history (· == .prepare_data_for_processing)
    _ = remaining s.memory.cond program := by
      rw [← Finset.sum_add_sum_compl s.memory.cond, Finset.sum_eq_zero hblocked, Nat.zero_add, remaining]
      exact Finset.sum_congr rfl fun t ht => by rw [hended t ht]

/-- The threads in `kept` are blocked, and enough others to be woken up by all
    notifications to come. -/
structure Stays (kept : Finset T) (s : Config T Call Phase (Memory T)) : Prop where
  subset : kept ⊆ s.memory.cond
  card : kept.card + remaining kept (fun t => (s.threads t).calls) ≤ s.memory.cond.card

omit [Fintype T] in
/-- What is not a notification wakes up nobody. -/
theorem cond_subset_of_acts (h : acts False t c m p m' p')
    (hnotify : ¬ (c = .prepare_data_for_processing ∧ p' = .returned)) : m.cond ⊆ m'.cond := by
  cases c with
  | wait_for_data_to_process =>
    cases h with
    | wait hready => exact Finset.subset_insert _ _
    | wakeUp hspurious ht => exact hspurious.elim
    | _ => exact Finset.Subset.refl _
  | prepare_data_for_processing =>
    cases h with
    | notify_one => exact absurd ⟨rfl, rfl⟩ hnotify
    | _ => exact Finset.Subset.refl _

theorem Stays.quiet (hs : Stays kept s) (hcond : s.memory.cond ⊆ m'.cond) {thread : Thread Call Phase}
    (hcount : thread.calls.count .prepare_data_for_processing ≤
      (s.threads t).calls.count .prepare_data_for_processing)
    (history : List (T × Call × Phase)) : Stays kept ⟨m', Function.update s.threads t thread, history⟩ where
  subset := hs.subset.trans hcond
  card := by
    have hle : remaining kept (fun u => (Function.update s.threads t thread u).calls) ≤
        remaining kept fun u => (s.threads u).calls := by
      refine Finset.sum_le_sum fun u _ => ?_
      dsimp only
      obtain rfl | hne := eq_or_ne u t
      · rwa [Function.update_self]
      · rw [Function.update_of_ne hne]
    have hcard := hs.card
    have hcard' := Finset.card_le_card hcond
    dsimp only
    omega

/-- Whenever a thread can go on, it can do so with `kept` blocked. -/
theorem Stays.exists_step (hs : Stays kept s) (h : (code False).Reachable program start s)
    (hstep : (code False).Step s s') : ∃ s', (code False).Step s s' ∧ Stays kept s' := by
  cases hstep with
  | @inside t c rest p p' m' hthread hacts hover =>
    have hcond := cond_subset_of_acts hacts fun hnotify => hover hnotify.2
    exact ⟨_, .inside hthread hacts hover, hs.quiet hcond (by rw [hthread]) _⟩
  | @leave t c rest p p' m' hthread hacts hover =>
    cases c with
    | wait_for_data_to_process =>
      have hcond : s.memory.cond ⊆ m'.cond := by
        apply cond_subset_of_acts (c := .wait_for_data_to_process) hacts
        rintro ⟨⟨⟩, -⟩
      exact ⟨_, .leave hthread hacts hover, hs.quiet hcond (by simp [hthread]) _⟩
    | prepare_data_for_processing =>
      have ht : t ∈ keptᶜ := by
        rw [Finset.mem_compl]
        intro ht
        obtain ⟨rest', -, hthread'⟩ := blocked_of_reachable h t (hs.subset ht)
        rw [hthread, Thread.mk.injEq, List.cons.injEq] at hthread'
        cases hthread'.1.1
      have hlt : remaining kept (fun u => (Function.update s.threads t ⟨rest, .entry⟩ u).calls) <
          remaining kept fun u => (s.threads u).calls := by
        refine Finset.sum_lt_sum (fun u _ => ?_) ⟨t, ht, ?_⟩
        · obtain rfl | hne := eq_or_ne u t
          · simp [hthread]
          · simp [hne]
        · simp [hthread]
      have hcard := hs.card
      obtain ⟨cond', hnotify, hkept⟩ := exists_notifyOne_keeping hs.subset (by omega)
      have hcard' := hnotify.card
      cases hacts with
      | notify_one =>
        refine ⟨_, .leave hthread (PrepareActs.notify_one hnotify) rfl, hkept, ?_⟩
        change kept.card + remaining kept (fun u => (Function.update s.threads t ⟨rest, .entry⟩ u).calls) ≤
          cond'.card
        omega
      | _ => cases hover

/-- The threads in `A` have come to be blocked, and no other has begun. -/
def asleep (program : T → List Call) (A : Finset T) : Config T Call Phase (Memory T) :=
  ⟨⟨fun _ => .shared [], A, false⟩, fun t => ⟨program t, if t ∈ A then .wait else .entry⟩, []⟩

theorem reachable_asleep {A : Finset T} (hA : A ⊆ waitFirst program) :
    (code False).Reachable program start (asleep program A) := by
  induction A using Finset.induction_on with
  | empty => exact ⟨0, .refl _⟩
  | insert t A ht ih =>
    obtain ⟨htwait, hA'⟩ := Finset.insert_subset_iff.mp hA
    obtain ⟨rest, hprogram⟩ : ∃ rest, program t = .wait_for_data_to_process :: rest := by
      cases hprogram : program t <;> simp_all [waitFirst]
    have hthread : (asleep program A).threads t = ⟨.wait_for_data_to_process :: rest, .entry⟩ := by
      simp [asleep, ht, hprogram]
    have hlock := (ih hA').tail (.inside hthread (WaitActs.lock trivial) (by simp [code]))
    have hwait := hlock.tail (.inside (Function.update_self ..) (WaitActs.wait rfl) (by simp [code]))
    convert hwait using 1
    simp only [asleep, Config.mk.injEq, Memory.mk.injEq, and_true]
    refine ⟨?_, ?_⟩
    · funext l
      simp [release, LockKind.release, Holders.release, grant, LockKind.grant, Holders.grant, lock]
    · funext u
      obtain rfl | hne := eq_or_ne u t
      · simp [hprogram]
      · simp [hne]

/-- Once they are blocked, the threads in `kept` may never be woken up. -/
theorem exists_final_blocked (hnonempty : kept.Nonempty) (hkept : kept ⊆ waitFirst program)
    (hcard : kept.card + remaining kept program ≤ (waitFirst program).card) :
    ∃ s, (code False).Reachable program start s ∧ (∀ s', ¬ (code False).Step s s') ∧
      ∃ t, (s.threads t).calls ≠ [] := by
  let Kept (s : Config T Call Phase (Memory T)) := (code False).Reachable program start s ∧ Stays kept s
  have hfirst : Kept (asleep program (waitFirst program)) := ⟨reachable_asleep (Finset.Subset.refl _), hkept, hcard⟩
  have hdecreases : ∀ s s', (Kept s ∧ (code False).Step s s') ∧ Kept s' → totalRank s' < totalRank s :=
    fun s s' hstep => totalRank_lt hstep.1.1.1 hstep.1.2
  obtain ⟨k, s, hrun, hfinal⟩ := exists_final hdecreases (asleep program (waitFirst program))
  obtain ⟨hreachable, hstays⟩ : Kept s := hrun.invariant (fun s s' _ hstep => hstep.2) hfirst
  refine ⟨s, hreachable, fun s' hstep => ?_, ?_⟩
  · obtain ⟨s', hstep', hstays'⟩ := hstays.exists_step hreachable hstep
    exact hfinal s' ⟨⟨⟨hreachable, hstays⟩, hstep'⟩, hreachable.tail hstep', hstays'⟩
  · obtain ⟨t, ht⟩ := hnonempty
    obtain ⟨rest, -, hthread⟩ := blocked_of_reachable hreachable t (hstays.subset ht)
    exact ⟨t, by simp [hthread]⟩

/-- Without spurious wakeups every run comes to an end. All calls return in all
    runs if and only if for every group of threads that begin by waiting, the
    others prepare data more often than there are threads beside the group that
    begin by waiting. -/
theorem all_return_iff (program : T → List Call) :
    (∀ k s, Run (code False).Step k ((code False).start program start) s → k ≤ ∑ t, 8 * (program t).length) ∧
    ((∀ s, (code False).Reachable program start s → (∀ s', ¬ (code False).Step s s') →
        ∀ t, (s.threads t).calls = []) ↔
      ∀ group ⊆ waitFirst program, group.Nonempty →
        (waitFirst program \ group).card < ∑ t ∈ groupᶜ, (program t).count .prepare_data_for_processing) := by
  have hcard : ∀ group ⊆ waitFirst program, (waitFirst program \ group).card + group.card =
      (waitFirst program).card := fun group hgroup => Finset.card_sdiff_add_card_eq_card hgroup
  refine ⟨fun k s hrun => ?_, ?_, ?_⟩
  · have hpreserved : ∀ s s', (code False).Reachable program start s → (code False).Step s s' →
        (code False).Reachable program start s' := fun s s' h hstep => h.tail hstep
    have hdecreases : ∀ s s', (code False).Reachable program start s ∧ (code False).Step s s' →
        totalRank s' < totalRank s := fun s s' hstep => totalRank_lt hstep.1 hstep.2
    have hle := (hrun.restrict hpreserved ⟨0, .refl _⟩).length_le hdecreases
    rw [totalRank_start] at hle
    omega
  · intro hreturn group hgroup hnonempty
    by_contra hle
    have hadd := hcard group hgroup
    obtain ⟨s, hreachable, hfinal, t, hcalls⟩ := exists_final_blocked hnonempty hgroup (by rw [remaining]; omega)
    exact hcalls (hreturn s hreachable hfinal t)
  · intro hgroups s hreachable hfinal t
    by_contra hcalls
    have ht := mem_cond_of_final hreachable hfinal hcalls
    have hgroup := cond_subset_waitFirst hreachable
    have hlt := hgroups s.memory.cond hgroup ⟨t, ht⟩
    have hle := card_cond_le hreachable ⟨t, ht⟩
    rw [notified_of_final hreachable hfinal, remaining] at hle
    have hadd := hcard s.memory.cond hgroup
    omega

end accelerators.data_processing
