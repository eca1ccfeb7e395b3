import Mathlib.Algebra.BigOperators.Group.List.Basic
import Accelerators.AccountManager
import Accelerators.Interleaving.Progress
import Accelerators.Locks.Threads

open interleaving locks transition_system

namespace accelerators.account_manager

variable {T O M : Type} [DecidableEq T] [DecidableEq O] [AddCommGroup M] {m m' : Memory T O M} {t u : T} {o : O}
  {c c' : Checking2Saving O M} {rest rest' : List (Checking2Saving O M)} {p p' : Phase M}
  {program : T → List (Checking2Saving O M)} {checkAcct_ savingAcct_ : O → M}
  {s s' : Config T (Checking2Saving O M) (Phase M) (Memory T O M)}

/-- The guard of a transfer, which it has from its first action to its last. -/
def held (c : Checking2Saving O M) : Phase M → List (Request O Mode)
  | .withdraw | .withdrawn _ | .deposit | .deposited _ | .unlock => [guard c]
  | .entry | .returned => []

theorem disciplined : Disciplined (code : Code T (Checking2Saving O M) (Phase M) (Memory T O M)) Memory.mutex
    (fun _ _ => []) held where
  entry := fun _ => rfl
  finish := by
    rintro c p rfl
    rfl
  effect := by
    intro t c m p m' p' hacts
    cases hacts with
    | lock hgrant => exact .grant hgrant (.refl _)
    | unlock => exact .release List.mem_cons_self (by simp [held])
    | _ => exact .none (.refl _)
  kept_others := fun _ _ _ => rfl

theorem accounts (h : code.Reachable program (start checkAcct_ savingAcct_) s) :
    Accounts s.memory.mutex (holdings held s.threads) :=
  disciplined.accounts (fun _ _ => Holders.count_free) h

def Phase.rank : Phase M → Nat
  | .entry => 6
  | .withdraw => 5
  | .withdrawn _ => 4
  | .deposit => 3
  | .deposited _ => 2
  | .unlock => 1
  | .returned => 0

theorem rank_lt (h : Acts t c m p m' p') : p'.rank < p.rank := by
  cases h <;> simp [Phase.rank]

/-- What the calls that are over have moved from one account of `o` to the other. -/
def moved (o : O) (history : List (T × Checking2Saving O M × Phase M)) : M :=
  (history.map fun e => if e.2.1.manager = o then e.2.1.amount else 0).sum

/-- The two balances of `o` after the calls that are over, less `x` and plus `y`. -/
def Moved (checkAcct_ savingAcct_ : O → M) (s : Config T (Checking2Saving O M) (Phase M) (Memory T O M)) (o : O)
    (x y : M) : Prop :=
  s.memory.checkAcct_ o = checkAcct_ o - moved o s.history - x ∧
    s.memory.savingAcct_ o = savingAcct_ o + moved o s.history + y

/-- The balances in the course of a transfer. -/
def During (checkAcct_ savingAcct_ : O → M) (s : Config T (Checking2Saving O M) (Phase M) (Memory T O M))
    (c : Checking2Saving O M) : Phase M → Prop
  | .withdraw => Moved checkAcct_ savingAcct_ s c.manager 0 0
  | .withdrawn b => Moved checkAcct_ savingAcct_ s c.manager 0 0 ∧ b = s.memory.checkAcct_ c.manager
  | .deposit => Moved checkAcct_ savingAcct_ s c.manager c.amount 0
  | .deposited b => Moved checkAcct_ savingAcct_ s c.manager c.amount 0 ∧ b = s.memory.savingAcct_ c.manager
  | .unlock => Moved checkAcct_ savingAcct_ s c.manager c.amount c.amount
  | .entry | .returned => True

/-- The balances are those of the transfers that are over, and of the one that
    has the guard, if there is one. -/
structure Balanced (checkAcct_ savingAcct_ : O → M) (s : Config T (Checking2Saving O M) (Phase M) (Memory T O M)) :
    Prop where
  free : ∀ o, s.memory.mutex o = .shared [] → Moved checkAcct_ savingAcct_ s o 0 0
  during : ∀ t c rest p, s.threads t = ⟨c :: rest, p⟩ → During checkAcct_ savingAcct_ s c p

omit [DecidableEq T] in
theorem moved_append (o : O) (history : List (T × Checking2Saving O M × Phase M)) (t : T) (c : Checking2Saving O M)
    (p : Phase M) :
    moved o (history ++ [(t, c, p)]) = moved o history + if c.manager = o then c.amount else 0 := by
  simp [moved]

/-- A transfer leaves the other managers alone. -/
theorem frame (h : Acts t c m p m' p') (hne : o ≠ c.manager) :
    m'.mutex o = m.mutex o ∧ m'.checkAcct_ o = m.checkAcct_ o ∧ m'.savingAcct_ o = m.savingAcct_ o := by
  cases h with
  | lock hgrant | unlock => exact ⟨Function.update_of_ne hne _ _, rfl, rfl⟩
  | withdrawn => exact ⟨rfl, Function.update_of_ne hne _ _, rfl⟩
  | deposited => exact ⟨rfl, rfl, Function.update_of_ne hne _ _⟩
  | withdraw | deposit => exact ⟨rfl, rfl, rfl⟩

omit [DecidableEq T] in
theorem During.congr (h : During checkAcct_ savingAcct_ s c p)
    (hcheck : s'.memory.checkAcct_ c.manager = s.memory.checkAcct_ c.manager)
    (hsaving : s'.memory.savingAcct_ c.manager = s.memory.savingAcct_ c.manager)
    (hmoved : moved c.manager s'.history = moved c.manager s.history) : During checkAcct_ savingAcct_ s' c p := by
  cases p with
  | entry | returned => trivial
  | _ => simpa only [During, Moved, hcheck, hsaving, hmoved] using h

omit [DecidableEq O] [AddCommGroup M] in
theorem free_of_grantable (h : Grantable m.mutex t (guard c)) : m.mutex c.manager = .shared [] := by
  simp only [Grantable, LockKind.Grantable, guard] at h
  cases hlock : m.mutex c.manager with
  | exclusive holder => simp [hlock, Holders.Grantable] at h
  | shared holders =>
    cases holders with
    | nil => rfl
    | cons holder rest => simp [hlock, Holders.Grantable] at h

/-- The balances when a transfer has got its guard, and from one action to the next. -/
theorem During.acts (h : During checkAcct_ savingAcct_ s c p)
    (hfree : s.memory.mutex c.manager = .shared [] → Moved checkAcct_ savingAcct_ s c.manager 0 0)
    (hacts : Acts t c s.memory p s'.memory p') (hhistory : s'.history = s.history) :
    During checkAcct_ savingAcct_ s' c p' := by
  obtain ⟨m, threads, history⟩ := s
  obtain ⟨m', threads', history'⟩ := s'
  obtain rfl : history' = history := hhistory
  cases hacts with
  | lock hgrant => exact hfree (free_of_grantable hgrant)
  | withdraw => exact ⟨h, rfl⟩
  | withdrawn =>
    obtain ⟨⟨hcheck, hsaving⟩, rfl⟩ := h
    refine ⟨?_, hsaving⟩
    dsimp only at hcheck ⊢
    rw [Function.update_self, hcheck, sub_zero]
  | deposit => exact ⟨h, rfl⟩
  | deposited =>
    obtain ⟨⟨hcheck, hsaving⟩, rfl⟩ := h
    refine ⟨hcheck, ?_⟩
    dsimp only at hsaving ⊢
    rw [Function.update_self, hsaving, add_zero]
  | unlock => trivial

omit [AddCommGroup M] in
/-- A mutex that a transfer holds is not free. -/
theorem not_free (h : Accounts s.memory.mutex (holdings held s.threads))
    (hthread : s.threads t = ⟨c :: rest, p⟩) (hheld : held c p = [guard c]) :
    s.memory.mutex c.manager ≠ .shared [] := by
  have hmem : guard c ∈ holdings held s.threads t := by simp [holdings, hthread, hheld]
  exact fun hfree => h.not_mem_of_free (r := guard c) hfree hmem

omit [AddCommGroup M] in
/-- Two threads are not in the course of transfers of one manager. -/
theorem manager_ne (h : Accounts s.memory.mutex (holdings held s.threads))
    (hthread : s.threads t = ⟨c :: rest, p⟩) (hheld : held c p = [guard c])
    (hthread' : s.threads u = ⟨c' :: rest', p'⟩) (hheld' : held c' p' = [guard c']) (hne : u ≠ t) :
    c'.manager ≠ c.manager := by
  intro heq
  have hmem : guard c ∈ holdings held s.threads t := by simp [holdings, hthread, hheld]
  have hmem' : guard c ∈ holdings held s.threads u := by simp [holdings, hthread', hheld', guard, heq]
  exact hne (h.exclusion hmem hmem').1

omit [DecidableEq T] in
/-- Before and after its transfer a thread does not care for the balances. -/
theorem During.of_not_held (hheld : held c p ≠ [guard c]) : During checkAcct_ savingAcct_ s c p := by
  cases p with
  | entry | returned => trivial
  | _ => exact absurd rfl hheld

theorem Balanced.step (h : Balanced checkAcct_ savingAcct_ s)
    (hreachable : code.Reachable program (start checkAcct_ savingAcct_) s) (hstep : code.Step s s') :
    Balanced checkAcct_ savingAcct_ s' := by
  have haccounts := accounts hreachable
  have haccounts' := accounts (hreachable.tail hstep)
  cases hstep with
  | @inside t c rest p p' m' hthread hacts hover =>
    have hheld : held c p' = [guard c] := by
      cases hacts with
      | unlock => exact absurd rfl hover
      | _ => rfl
    have hthread' : Function.update s.threads t ⟨c :: rest, p'⟩ t = ⟨c :: rest, p'⟩ := Function.update_self ..
    constructor
    · intro o hfree
      have hne : o ≠ c.manager := by
        rintro rfl
        exact not_free haccounts' hthread' hheld hfree
      obtain ⟨hmutex, hcheck, hsaving⟩ := frame hacts hne
      have ho := h.free o (hmutex ▸ hfree)
      simpa only [Moved, hcheck, hsaving] using ho
    · intro u c' rest' q hu
      obtain rfl | hut := eq_or_ne u t
      · obtain ⟨⟨rfl, rfl⟩, rfl⟩ := by simpa using hthread'.symm.trans hu
        exact (h.during u c rest p hthread).acts (h.free _) hacts rfl
      · by_cases hheld' : held c' q = [guard c']
        · obtain ⟨-, hcheck, hsaving⟩ := frame hacts (manager_ne haccounts' hthread' hheld hu hheld' hut)
          have hu' := (Function.update_of_ne hut _ _).symm.trans hu
          exact (h.during u c' rest' q hu').congr hcheck hsaving rfl
        · exact .of_not_held hheld'
  | @leave t c rest p p' m' hthread hacts hover =>
    obtain ⟨rfl, rfl⟩ : p = .unlock ∧ m' = { s.memory with mutex := release s.memory.mutex t (guard c) } := by
      cases hacts with
      | unlock => exact ⟨rfl, rfl⟩
      | _ => cases hover
    obtain ⟨hcheck, hsaving⟩ := h.during t c rest .unlock hthread
    constructor
    · intro o hfree
      rw [Moved, moved_append]
      obtain rfl | hne := eq_or_ne o c.manager
      · rw [if_pos rfl]
        dsimp only
        rw [hcheck, hsaving]
        exact ⟨by rw [sub_zero, sub_sub], by rw [add_zero, add_assoc]⟩
      · rw [if_neg hne.symm, add_zero]
        exact h.free o ((frame hacts hne).1 ▸ hfree)
    · intro u c' rest' q hu
      by_cases hheld' : held c' q = [guard c']
      · have hut : u ≠ t := by
          rintro rfl
          dsimp only at hu
          rw [Function.update_self, Thread.mk.injEq] at hu
          rw [← hu.2] at hheld'
          cases hheld'
        have hu' := (Function.update_of_ne hut _ _).symm.trans hu
        have hne := manager_ne haccounts hthread rfl hu' hheld' hut
        refine (h.during u c' rest' q hu').congr rfl rfl ?_
        rw [moved_append, if_neg hne.symm, add_zero]
      · exact .of_not_held hheld'

theorem balanced_of_reachable (h : code.Reachable program (start checkAcct_ savingAcct_) s) :
    Balanced checkAcct_ savingAcct_ s := by
  refine h.invariant (Balanced checkAcct_ savingAcct_) ⟨fun o _ => ?_, ?_⟩ fun s s' hreachable hs hstep =>
    hs.step hreachable hstep
  · simp [Moved, moved, Code.start, start]
  · intro t c rest p hthread
    obtain rfl : Phase.entry = p := (Thread.mk.inj hthread).2
    trivial

/-- A thread waits for its guard, or it can go on. -/
theorem exists_acts (hover : p ≠ .returned) (hgrant : p = .entry → Grantable m.mutex t (guard c)) :
    ∃ m' p', Acts t c m p m' p' := by
  cases p with
  | entry => exact ⟨_, _, .lock (hgrant rfl)⟩
  | withdraw => exact ⟨_, _, .withdraw⟩
  | withdrawn b => exact ⟨_, _, .withdrawn⟩
  | deposit => exact ⟨_, _, .deposit⟩
  | deposited b => exact ⟨_, _, .deposited⟩
  | unlock => exact ⟨_, _, .unlock⟩
  | returned => exact absurd rfl hover

theorem ended_of_final (h : code.Reachable program (start checkAcct_ savingAcct_) s)
    (hfinal : ∀ s', ¬ code.Step s s') : ∀ t, (s.threads t).calls = [] := by
  -- a thread that has a guard can go on, so all mutexes are free
  have hentry : ∀ t c rest p, s.threads t = ⟨c :: rest, p⟩ →
      p = .entry ∧ ¬ Grantable s.memory.mutex t (guard c) := by
    intro t c rest p hthread
    have hover := h.not_over (by simp [code]) t
    rw [hthread] at hover
    by_contra hwait
    obtain ⟨m', p', hacts⟩ := exists_acts (m := s.memory) (t := t) (c := c) hover
      fun hp => not_not.mp fun hgrant => hwait ⟨hp, hgrant⟩
    have hstep : ∃ s', code.Step s s' := Code.exists_step hthread hacts
    exact hstep.elim hfinal
  intro t
  by_contra hcalls
  cases hthread : s.threads t with
  | mk calls p =>
    rw [hthread] at hcalls
    obtain ⟨c, rest, rfl⟩ := List.exists_cons_of_ne_nil hcalls
    obtain ⟨u, mode, hu⟩ := (accounts h).exists_holder (hentry t c rest p hthread).2
    cases hthread' : s.threads u with
    | mk calls' q =>
      cases calls' with
      | nil => simp [holdings, hthread'] at hu
      | cons c' rest' =>
        obtain ⟨rfl, -⟩ := hentry u c' rest' q hthread'
        simp [holdings, hthread', held] at hu

/-- Transfers from the one account of a manager to the other neither get stuck nor
    lose money: whenever the mutex of a manager is free, the balances are those of
    the transfers that are over, and in the end those of all transfers. -/
theorem transfers_complete [Fintype T] (program : T → List (Checking2Saving O M)) (checkAcct_ savingAcct_ : O → M) :
    (∀ k s, Run code.Step k (code.start program (start checkAcct_ savingAcct_)) s →
      k ≤ ∑ t, 6 * (program t).length) ∧
    (∀ s, code.Reachable program (start checkAcct_ savingAcct_) s → ∀ o, s.memory.mutex o = .shared [] →
      s.memory.checkAcct_ o = checkAcct_ o - moved o s.history ∧
        s.memory.savingAcct_ o = savingAcct_ o + moved o s.history) ∧
    ∀ s, code.Reachable program (start checkAcct_ savingAcct_) s → (∀ s', ¬ code.Step s s') →
      (∀ t, Code.done s t = program t) ∧ ∀ o, s.memory.mutex o = .shared [] := by
  refine ⟨fun k s hrun => Code.length_le_of_rank rank_lt hrun, fun s h o hfree => ?_,
    fun s h hfinal => ⟨fun t => ?_, fun o => ?_⟩⟩
  · have hmoved := (balanced_of_reachable h).free o hfree
    rwa [Moved, sub_zero, add_zero] at hmoved
  · have hdone := h.done_append_calls t
    rwa [ended_of_final h hfinal t, List.append_nil] at hdone
  · refine (accounts h).eq_shared_nil fun t mode => ?_
    simp [holdings, ended_of_final h hfinal t]

end accelerators.account_manager
