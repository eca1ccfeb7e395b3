import Accelerators.BankAccount
import Accelerators.Locks.Threads

open interleaving locks transition_system

namespace accelerators.bank_account

variable {T A M : Type} [DecidableEq T] [DecidableEq A] {m m' : Memory T A M} {t u : T} {a : A} {c : Call A M}
  {rest : List (Call A M)} {p p' : Phase M}

/-- What a call holds or relies on between its first and its last action. -/
def Phase.inside {X : Type} (x : X) : Phase M → List X
  | .read | .write _ | .exit _ => [x]
  | .entry | .returned _ | .thrown => []

/-- The mutexes of the guards that a thread has. -/
def kept (m : Memory T A M) (t : T) : List (Request A Unit) := (m.guards t).map fun account => ⟨account, ()⟩

/-- The mutex of a call that locks its account itself. -/
def held (c : Call A M) (p : Phase M) : List (Request A Unit) :=
  match c with
  | .getBalance account | .deposit account _ | .withdraw account _ => p.inside ⟨account, ()⟩
  | .strict_lock _ | .end_scope | .depositGuarded _ _ _ | .withdrawGuarded _ _ _ => []

/-- The account that a call relies on its caller to have locked. -/
def relied (c : Call A M) (p : Phase M) : List A :=
  match c with
  | .depositGuarded account _ _ | .withdrawGuarded account _ _ => p.inside account
  | .strict_lock _ | .end_scope | .getBalance _ | .deposit _ _ | .withdraw _ _ => []

/-- The statements of a method body move no lock and no guard. -/
structure Inside (m : Memory T A M) (p : Phase M) (m' : Memory T A M) (p' : Phase M) : Prop where
  mutex : m'.mutex = m.mutex
  guards : m'.guards = m.guards
  before : ∀ {X : Type} (x : X), p.inside x = [x]
  after : ∀ {X : Type} (x : X), p'.inside x = [x]

omit [DecidableEq T] in
theorem Assign.inside {f : M → M} (h : Assign a f m p m' p') : Inside m p m' p' := by
  cases h <;> exact ⟨rfl, rfl, fun x => rfl, fun x => rfl⟩

omit [DecidableEq T] [DecidableEq A] in
theorem Read.inside (h : Read a m p m' p') : Inside m p m' p' := by
  cases h
  exact ⟨rfl, rfl, fun x => rfl, fun x => rfl⟩

omit [DecidableEq T] in
theorem DepositGuarded.frame {f : M → M} {guard : A} (h : DepositGuarded t a f guard m p m' p') :
    m'.mutex = m.mutex ∧ m'.guards = m.guards := by
  cases h with
  | body hbody => exact ⟨hbody.inside.mutex, hbody.inside.guards⟩
  | _ => exact ⟨rfl, rfl⟩

omit [DecidableEq T] in
theorem WithdrawGuarded.frame {f : M → M} {guard : A} (h : WithdrawGuarded t a f guard m p m' p') :
    m'.mutex = m.mutex ∧ m'.guards = m.guards := by
  cases h with
  | body hbody => exact ⟨hbody.inside.mutex, hbody.inside.guards⟩
  | _ => exact ⟨rfl, rfl⟩

theorem LockGuard.guards_eq {body : Memory T A M → Phase M → Memory T A M → Phase M → Prop}
    (hbody : ∀ {m p m' p'}, body m p m' p' → Inside m p m' p') (h : LockGuard t a body m p m' p') :
    m'.guards = m.guards := by
  cases h with
  | body h => exact (hbody h).guards
  | _ => rfl

/-- A thread changes its own guards only. -/
theorem guards_others [Add M] [Sub M] (h : acts t c m p m' p') (hne : u ≠ t) : m'.guards u = m.guards u := by
  cases c with
  | strict_lock account =>
    cases h
    exact Function.update_of_ne hne _ _
  | end_scope =>
    cases h
    exact Function.update_of_ne hne _ _
  | getBalance account => rw [LockGuard.guards_eq Read.inside h]
  | deposit account amount => rw [LockGuard.guards_eq Assign.inside h]
  | withdraw account amount => rw [LockGuard.guards_eq Assign.inside h]
  | depositGuarded account amount guard => rw [(DepositGuarded.frame h).2]
  | withdrawGuarded account amount guard => rw [(WithdrawGuarded.frame h).2]

theorem LockGuard.effect {body : Memory T A M → Phase M → Memory T A M → Phase M → Prop}
    (hbody : ∀ {m p m' p'}, body m p m' p' → Inside m p m' p') (h : LockGuard t a body m p m' p') :
    Effect t m.mutex (kept m t ++ p.inside ⟨a, ()⟩) m'.mutex (kept m' t ++ p'.inside ⟨a, ()⟩) := by
  have hswap : List.Perm (kept m t ++ [⟨a, ()⟩]) ([⟨a, ()⟩] ++ kept m t) := List.perm_append_comm
  cases h with
  | lock hgrant => exact .grant hgrant (by simp [Phase.inside, kept])
  | body h =>
    obtain ⟨hmutex, hguards, hbefore, hafter⟩ := hbody h
    rw [hmutex, hbefore, hafter, kept, kept, hguards]
    exact .none (.refl _)
  | unlock =>
    refine .release (r := ⟨a, ()⟩) (by simp [Phase.inside]) ?_
    have herase := (hswap.erase ⟨a, ()⟩).symm
    simpa [Phase.inside, kept] using herase

theorem disciplined [Add M] [Sub M] :
    Disciplined (code : Code T (Call A M) (Phase M) (Memory T A M)) Memory.mutex kept held where
  entry := by
    intro c
    cases c <;> rfl
  finish := by
    intro c p hover
    cases p with
    | returned result => cases c <;> rfl
    | thrown => cases c <;> rfl
    | _ => cases hover
  effect := by
    intro t c m p m' p' hacts
    cases c with
    | strict_lock account =>
      cases hacts with
      | lock hgrant => exact .grant hgrant (by simp [kept, held])
    | end_scope =>
      cases hacts with
      | @unlock account guards hguards =>
        exact .release (r := ⟨account, ()⟩) (by simp [kept, hguards]) (by simp [kept, held, hguards])
    | getBalance account => exact LockGuard.effect Read.inside hacts
    | deposit account amount => exact LockGuard.effect Assign.inside hacts
    | withdraw account amount => exact LockGuard.effect Assign.inside hacts
    | depositGuarded account amount guard =>
      obtain ⟨hmutex, hguards⟩ := DepositGuarded.frame hacts
      rw [hmutex, kept, kept, hguards]
      exact .none (.refl _)
    | withdrawGuarded account amount guard =>
      obtain ⟨hmutex, hguards⟩ := WithdrawGuarded.frame hacts
      rw [hmutex, kept, kept, hguards]
      exact .none (.refl _)
  kept_others := by
    intro t c m p m' p' hacts u hne
    rw [kept, kept, guards_others hacts hne]

/-- A thread withdraws from an account it has a `strict_lock` on, if it does so
    with a guard at all. -/
def MayWithdraw (t : T) (c : Call A M) (m : Memory T A M) : Prop :=
  ∀ account amount guard, c = .withdrawGuarded account amount guard → account ∈ m.guards t

/-- The calls on accounts, with every guarded withdrawal under the right lock. -/
def guardedCode [Add M] [Sub M] : Code T (Call A M) (Phase M) (Memory T A M) := code.restrict MayWithdraw

theorem relied_of_acts [Add M] [Sub M] (h : acts t c m p m' p') (hmay : MayWithdraw t c m)
    (hrelied : ∀ a ∈ relied c p, a ∈ m.guards t) : ∀ a ∈ relied c p', a ∈ m'.guards t := by
  cases c with
  | depositGuarded account amount guard =>
    rw [(DepositGuarded.frame h).2]
    cases h with
    | throw hguard howns => simp [relied, Phase.inside]
    | enter hguard howns => simpa [relied, Phase.inside, ← howns] using hguard
    | body hbody =>
      rw [relied, hbody.inside.before] at hrelied
      rwa [relied, hbody.inside.after]
    | exit => simp [relied, Phase.inside]
  | withdrawGuarded account amount guard =>
    rw [(WithdrawGuarded.frame h).2]
    intro a ha
    obtain rfl : a = account := by
      cases p' <;> simp_all [relied, Phase.inside]
    exact hmay a amount guard rfl
  | _ => simp [relied]

section

variable [Add M] [Sub M] {program : T → List (Call A M)} {s s' : Config T (Call A M) (Phase M) (Memory T A M)}

/-- The caller of a guarded call has locked the account, in every reachable state. -/
theorem relied_of_reachable (h : guardedCode.Reachable program m s) :
    ∀ t c rest p, s.threads t = ⟨c :: rest, p⟩ → ∀ a ∈ relied c p, a ∈ s.memory.guards t := by
  refine h.locally (fun t c p m => ∀ a ∈ relied c p, a ∈ m.guards t) ?_ ?_ ?_
  · intro t c m
    cases c <;> exact List.forall_mem_nil _
  · intro s s' t c rest p p' hreachable hturn hrelied
    exact relied_of_acts hturn.acts.2 hturn.acts.1 hrelied
  · intro s s' t c rest p p' hturn u c' q hne hrelied
    rwa [guards_others hturn.acts.2 hne]

end

end accelerators.bank_account
