import Mathlib.Data.Fin.VecNotation
import Mathlib.Tactic.FinCases
import Accelerators.BankAccount.Ledger
import Accelerators.Interleaving.Progress
import Accelerators.Locks.Ordered

open interleaving locks transition_system

namespace accelerators.bank_account

variable {T A M : Type} [DecidableEq T] [LinearOrder A] {m m' : Memory T A M} {t u : T} {a : A} {c : Call A M}
  {rest : List (Call A M)} {p p' : Phase M} {program : T → List (Call A M)} {guards : List A}
  {s s' : Config T (Call A M) (Phase M) (Memory T A M)}

/-- The account whose mutex a call waits for. -/
def Call.locks : Call A M → Option A
  | .strict_lock account | .getBalance account | .deposit account _ | .withdraw account _ => some account
  | .end_scope | .depositGuarded _ _ _ | .withdrawGuarded _ _ _ => none

/-- The guards of a thread after a call. -/
def Call.leaves (guards : List A) : Call A M → List A
  | .strict_lock account => account :: guards
  | .end_scope => guards.tail
  | _ => guards

/-- A call that a thread with the given guards may make: it waits for no account
    below one that it has locked, ends no scope that it has not begun, and passes
    a guard of the account that it works on. -/
def Call.Allowed (guards : List A) (c : Call A M) : Prop :=
  (∀ account, c.locks = some account → account ∈ guards ∨ ∀ b ∈ guards, b < account) ∧
    match c with
    | .end_scope => guards ≠ []
    | .depositGuarded account _ guard => guard = account ∧ account ∈ guards
    | .withdrawGuarded account _ guard => guard ∈ guards ∧ account ∈ guards
    | _ => True

/-- Calls that are allowed, and at the end of which all scopes have ended. -/
def Scoped (guards : List A) : List (Call A M) → Prop
  | [] => guards = []
  | c :: rest => c.Allowed guards ∧ Scoped (c.leaves guards) rest

/-- How many actions a call is away from its end, at most. -/
def Phase.rank : Phase M → Nat
  | .entry => 4
  | .read => 3
  | .write _ => 2
  | .exit _ => 1
  | .returned _ | .thrown => 0

omit [DecidableEq T] in
theorem Assign.rank_lt {f : M → M} (h : Assign a f m p m' p') : p'.rank < p.rank := by
  cases h <;> simp [Phase.rank]

theorem LockGuard.rank_lt {body : Memory T A M → Phase M → Memory T A M → Phase M → Prop}
    (hbody : ∀ {m p m' p'}, body m p m' p' → p'.rank < p.rank) (h : LockGuard t a body m p m' p') :
    p'.rank < p.rank := by
  cases h with
  | body h => exact hbody h
  | _ => simp [Phase.rank]

variable [AddCommGroup M]

theorem rank_lt (h : acts t c m p m' p') : p'.rank < p.rank := by
  cases c with
  | strict_lock | end_scope =>
    cases h
    simp [Phase.rank]
  | getBalance account =>
    refine LockGuard.rank_lt (fun hread => ?_) h
    cases hread
    simp [Phase.rank]
  | deposit account amount | withdraw account amount => exact LockGuard.rank_lt Assign.rank_lt h
  | depositGuarded account amount guard | withdrawGuarded account amount guard =>
    cases h with
    | body hbody => exact hbody.rank_lt
    | _ => simp [Phase.rank]

/-- The guards of the thread that acts: they change at the end of a call, if at all. -/
theorem guards_of_acts (h : acts t c m p m' p') :
    (p'.Over → m'.guards t = c.leaves (m.guards t)) ∧ (¬ p'.Over → m'.guards t = m.guards t) := by
  cases c with
  | strict_lock account =>
    cases h
    exact ⟨fun _ => Function.update_self .., fun hover => absurd trivial hover⟩
  | end_scope =>
    cases h with
    | unlock hguards =>
      refine ⟨fun _ => ?_, fun hover => absurd trivial hover⟩
      rw [Call.leaves, hguards]
      exact Function.update_self ..
  | getBalance account =>
    have hguards := LockGuard.guards_eq Read.inside h
    exact ⟨fun _ => by rw [hguards]; rfl, fun _ => by rw [hguards]⟩
  | deposit account amount | withdraw account amount =>
    have hguards := LockGuard.guards_eq Assign.inside h
    exact ⟨fun _ => by rw [hguards]; rfl, fun _ => by rw [hguards]⟩
  | depositGuarded account amount guard =>
    have hguards := (DepositGuarded.frame h).2
    exact ⟨fun _ => by rw [hguards]; rfl, fun _ => by rw [hguards]⟩
  | withdrawGuarded account amount guard =>
    have hguards := (WithdrawGuarded.frame h).2
    exact ⟨fun _ => by rw [hguards]; rfl, fun _ => by rw [hguards]⟩

/-- What a thread has still to do fits the guards that it has. -/
theorem scoped_of_step (hscoped : ∀ t, Scoped (s.memory.guards t) (s.threads t).calls) (hstep : code.Step s s') :
    ∀ t, Scoped (s'.memory.guards t) (s'.threads t).calls := by
  intro u
  cases hstep with
  | @inside t c rest p p' m' hthread hacts hover =>
    dsimp only
    obtain rfl | hne := eq_or_ne u t
    · have hu := hscoped u
      rw [hthread] at hu
      rwa [Function.update_self, (guards_of_acts hacts).2 hover]
    · rw [Function.update_of_ne hne, guards_others hacts hne]
      exact hscoped u
  | @leave t c rest p p' m' hthread hacts hover =>
    dsimp only
    obtain rfl | hne := eq_or_ne u t
    · have hu := hscoped u
      rw [hthread] at hu
      rw [Function.update_self, (guards_of_acts hacts).1 hover]
      exact hu.2
    · rw [Function.update_of_ne hne, guards_others hacts hne]
      exact hscoped u

/-- Whoever withdraws with a guard has locked the account. -/
theorem guarded_of_step (hscoped : ∀ t, Scoped (s.memory.guards t) (s.threads t).calls) (hstep : code.Step s s') :
    guardedCode.Step s s' := by
  have hmay : ∀ t c rest p, s.threads t = ⟨c :: rest, p⟩ → MayWithdraw t c s.memory := by
    rintro t c rest p hthread account amount guard rfl
    have ht := hscoped t
    rw [hthread] at ht
    exact ht.1.2.2
  cases hstep with
  | inside hthread hacts hover => exact .inside hthread ⟨hmay _ _ _ _ hthread, hacts⟩ hover
  | leave hthread hacts hover => exact .leave hthread ⟨hmay _ _ _ _ hthread, hacts⟩ hover

/-- The phases of a call that has not returned. -/
def Within (c : Call A M) (p : Phase M) : Prop :=
  match c with
  | .strict_lock _ | .end_scope => p = .entry
  | .getBalance _ => ∀ b, p ≠ .write b
  | _ => True

omit [LinearOrder A] [DecidableEq T] in
theorem within_of_inside [DecidableEq T] [DecidableEq A] (h : acts t c m p m' p') (hover : ¬ p'.Over) :
    Within c p' := by
  cases c with
  | strict_lock | end_scope =>
    cases h
    exact absurd trivial hover
  | getBalance account =>
    rintro b rfl
    cases h with
    | body hbody => cases hbody
  | _ => trivial

theorem within_of_reachable (h : code.Reachable program start s) :
    ∀ t c rest p, s.threads t = ⟨c :: rest, p⟩ → Within c p := by
  have hwithin := h.locally (fun _ c p _ => p.Over ∨ Within c p) ?_ ?_ (fun _ _ _ _ _ _ _ _ _ _ _ _ hat => hat)
  · intro t c rest p hthread
    have hover := h.not_over (by simp [code, Phase.Over]) t
    rw [hthread] at hover
    exact (hwithin t c rest p hthread).resolve_left hover
  · intro t c m
    cases c <;> simp [Within, code]
  · intro s s' t c rest p p' _ hturn _
    by_cases hover : p'.Over
    · exact .inl hover
    · exact .inr (within_of_inside hturn.acts hover)

/-- A call that is allowed goes on, unless it waits for a mutex. -/
theorem exists_acts (hallowed : c.Allowed (m.guards t)) (hwithin : Within c p) (hover : ¬ p.Over)
    (hgrant : ∀ account, p = .entry → c.locks = some account → Grantable m.mutex t ⟨account, ()⟩) :
    ∃ m' p', acts t c m p m' p' := by
  cases c with
  | strict_lock account =>
    obtain rfl : p = .entry := hwithin
    exact ⟨_, _, StrictLock.lock (hgrant account rfl rfl)⟩
  | end_scope =>
    obtain rfl : p = .entry := hwithin
    obtain ⟨account, guards, hguards⟩ := List.exists_cons_of_ne_nil hallowed.2
    exact ⟨_, _, EndScope.unlock hguards⟩
  | getBalance account =>
    cases p with
    | entry => exact ⟨_, _, LockGuard.lock (hgrant account rfl rfl)⟩
    | read => exact ⟨_, _, LockGuard.body .read⟩
    | write b => exact absurd rfl (hwithin b)
    | exit result => exact ⟨_, _, LockGuard.unlock⟩
    | returned | thrown => exact absurd trivial hover
  | deposit account amount | withdraw account amount =>
    cases p with
    | entry => exact ⟨_, _, LockGuard.lock (hgrant account rfl rfl)⟩
    | read => exact ⟨_, _, LockGuard.body .read⟩
    | write b => exact ⟨_, _, LockGuard.body .write⟩
    | exit result => exact ⟨_, _, LockGuard.unlock⟩
    | returned | thrown => exact absurd trivial hover
  | depositGuarded account amount guard =>
    cases p with
    | entry =>
      obtain ⟨rfl, hguard⟩ := hallowed.2
      exact ⟨_, _, DepositGuarded.enter hguard rfl⟩
    | read => exact ⟨_, _, DepositGuarded.body .read⟩
    | write b => exact ⟨_, _, DepositGuarded.body .write⟩
    | exit result => exact ⟨_, _, DepositGuarded.exit⟩
    | returned | thrown => exact absurd trivial hover
  | withdrawGuarded account amount guard =>
    cases p with
    | entry => exact ⟨_, _, WithdrawGuarded.enter hallowed.2.1⟩
    | read => exact ⟨_, _, WithdrawGuarded.body .read⟩
    | write b => exact ⟨_, _, WithdrawGuarded.body .write⟩
    | exit result => exact ⟨_, _, WithdrawGuarded.exit⟩
    | returned | thrown => exact absurd trivial hover

section

variable (hscoped : ∀ t, Scoped [] (program t))
include hscoped

theorem scoped_of_reachable (h : code.Reachable program start s) :
    ∀ t, Scoped (s.memory.guards t) (s.threads t).calls := by
  obtain ⟨k, hrun⟩ := h
  exact hrun.invariant (fun s s' hs hstep => scoped_of_step hs hstep) hscoped

theorem guarded_of_reachable (h : code.Reachable program start s) : guardedCode.Reachable program start s := by
  obtain ⟨k, hrun⟩ := h
  refine ⟨k, (hrun.restrict (fun s s' hs hstep => scoped_of_step hs hstep) hscoped).mono ?_⟩
  exact fun s s' hstep => guarded_of_step hstep.1 hstep.2

/-- When no thread can go on, those that are not at their end wait for a mutex. -/
theorem waits_of_final (h : code.Reachable program start s) (hfinal : ∀ s', ¬ code.Step s s')
    (hcalls : (s.threads t).calls ≠ []) : ∃ c rest account, s.threads t = ⟨c :: rest, .entry⟩ ∧
      c.locks = some account ∧ ¬ Grantable s.memory.mutex t ⟨account, ()⟩ := by
  have hover := h.not_over (by simp [code, Phase.Over]) t
  have hallowed := scoped_of_reachable hscoped h t
  cases hthread : s.threads t with
  | mk calls p =>
    rw [hthread] at hcalls hover hallowed
    obtain ⟨c, rest, rfl⟩ := List.exists_cons_of_ne_nil hcalls
    by_contra hwait
    obtain ⟨m', p', hacts⟩ := exists_acts hallowed.1 (within_of_reachable h t c rest p hthread) hover (by
      rintro account rfl hlocks
      by_contra hgrant
      exact hwait ⟨c, rest, account, rfl, hlocks, hgrant⟩)
    have hstep : ∃ s', code.Step s s' := Code.exists_step hthread hacts
    exact hstep.elim hfinal

/-- When no thread can go on, all are at their end: of those that are not, one
    would wait for an account that only they can have locked and none of them has. -/
theorem ended_of_final [Finite T] (h : code.Reachable program start s) (hfinal : ∀ s', ¬ code.Step s s') :
    ∀ t, (s.threads t).calls = [] := by
  have haccounts := accounts (guarded_of_reachable hscoped h)
  by_contra hcalls
  have hwaiting : {t | (s.threads t).calls ≠ []}.Nonempty := not_forall.mp hcalls
  obtain ⟨t, -, account, hlocked, hnone⟩ := exists_not_held hwaiting
    (fun _ account => ∃ u, ⟨account, ()⟩ ∈ owned s u) (fun t account => account ∈ s.memory.guards t) (by
      intro t ht
      obtain ⟨c, rest, account, hthread, hlocks, hgrant⟩ := waits_of_final hscoped h hfinal ht
      obtain ⟨hlocked, hnot⟩ := haccounts.exists_owner hgrant
      refine ⟨account, hlocked, ?_⟩
      have hallowed := scoped_of_reachable hscoped h t
      rw [hthread] at hallowed
      refine (hallowed.1.1 account hlocks).resolve_left fun hmem => hnot ?_
      simp [owned, kept, hmem])
  obtain ⟨u, hu⟩ := hlocked
  by_cases hcalls : (s.threads u).calls = []
  · have hscope := scoped_of_reachable hscoped h u
    rw [hcalls] at hscope
    have hguards : s.memory.guards u = [] := hscope
    simp [owned, kept, holdings, hguards, hcalls] at hu
  · obtain ⟨c, rest, -, hthread, -, -⟩ := waits_of_final hscoped h hfinal hcalls
    have hentry : held c .entry = [] := by cases c <;> rfl
    have hmem : account ∈ s.memory.guards u := by
      simpa [owned, kept, holdings, hthread, hentry] using hu
    exact hnone u hcalls hmem

end

end accelerators.bank_account
