import Accelerators.Interleaving
import Accelerators.Locks.Recursive

open interleaving locks

namespace accelerators.bank_account

/-- The recursive mutex and the balance of every account, and the accounts that
    each thread has a `strict_lock` on, the innermost first. Amounts are only
    added and subtracted, so their type does not matter. -/
structure Memory (T A M : Type) where
  mutex : Table A (Recursive T)
  balance_ : A → M
  guards : T → List A

/-- The calls on accounts. A guard is known by the account it locks; `end_scope`
    is the end of the scope of the innermost one. -/
inductive Call (A M : Type) where
  | strict_lock (account : A)
  | end_scope
  | getBalance (account : A)
  | deposit (account : A) (amount : M)
  | withdraw (account : A) (amount : M)
  | depositGuarded (account : A) (amount : M) (guard : A)
  | withdrawGuarded (account : A) (amount : M) (guard : A)

/-- Where a thread is in a call. `balance_ += amount` reads first and then
    writes what it computed from the value it read. -/
inductive Phase (M : Type) where
  | entry
  | read
  | write (b : M)
  | exit (result : Option M)
  | returned (result : Option M)
  | thrown

def Phase.Over {M : Type} : Phase M → Prop
  | .returned _ | .thrown => True
  | .entry | .read | .write _ | .exit _ => False

variable {T A M : Type} [DecidableEq T] [DecidableEq A]

/-- A compound assignment to the balance of an account. -/
inductive Assign (account : A) (f : M → M) : Memory T A M → Phase M → Memory T A M → Phase M → Prop where
  | read {m : Memory T A M} : Assign account f m .read m (.write (m.balance_ account))
  | write {m : Memory T A M} {b : M} :
      Assign account f m (.write b) { m with balance_ := Function.update m.balance_ account (f b) } (.exit none)

/-- `int b = balance_`. -/
inductive Read (account : A) : Memory T A M → Phase M → Memory T A M → Phase M → Prop where
  | read {m : Memory T A M} : Read account m .read m (.exit (some (m.balance_ account)))

/-- A method body in the scope of `lock_guard<BankAccount> _(*this)`. -/
inductive LockGuard (t : T) (account : A) (body : Memory T A M → Phase M → Memory T A M → Phase M → Prop) :
    Memory T A M → Phase M → Memory T A M → Phase M → Prop where
  | lock {m : Memory T A M} (hgrant : Grantable m.mutex t ⟨account, ()⟩) :
      LockGuard t account body m .entry { m with mutex := grant m.mutex t ⟨account, ()⟩ } .read
  | body {m m' : Memory T A M} {p p' : Phase M} (hbody : body m p m' p') : LockGuard t account body m p m' p'
  | unlock {m : Memory T A M} {result : Option M} :
      LockGuard t account body m (.exit result) { m with mutex := release m.mutex t ⟨account, ()⟩ }
        (.returned result)

/-- `Deposit(amount, guard)` throws when the guard is on another account. -/
inductive DepositGuarded (t : T) (account : A) (f : M → M) (guard : A) :
    Memory T A M → Phase M → Memory T A M → Phase M → Prop where
  | throw {m : Memory T A M} (hguard : guard ∈ m.guards t) (howns : guard ≠ account) :
      DepositGuarded t account f guard m .entry m .thrown
  | enter {m : Memory T A M} (hguard : guard ∈ m.guards t) (howns : guard = account) :
      DepositGuarded t account f guard m .entry m .read
  | body {m m' : Memory T A M} {p p' : Phase M} (hbody : Assign account f m p m' p') :
      DepositGuarded t account f guard m p m' p'
  | exit {m : Memory T A M} {result : Option M} :
      DepositGuarded t account f guard m (.exit result) m (.returned result)

/-- `Withdraw(amount, guard)` does not look at its guard. -/
inductive WithdrawGuarded (t : T) (account : A) (f : M → M) (guard : A) :
    Memory T A M → Phase M → Memory T A M → Phase M → Prop where
  | enter {m : Memory T A M} (hguard : guard ∈ m.guards t) : WithdrawGuarded t account f guard m .entry m .read
  | body {m m' : Memory T A M} {p p' : Phase M} (hbody : Assign account f m p m' p') :
      WithdrawGuarded t account f guard m p m' p'
  | exit {m : Memory T A M} {result : Option M} :
      WithdrawGuarded t account f guard m (.exit result) m (.returned result)

/-- The constructor of a `strict_lock` waits for the mutex. -/
inductive StrictLock (t : T) (account : A) : Memory T A M → Phase M → Memory T A M → Phase M → Prop where
  | lock {m : Memory T A M} (hgrant : Grantable m.mutex t ⟨account, ()⟩) :
      StrictLock t account m .entry
        ⟨grant m.mutex t ⟨account, ()⟩, m.balance_, Function.update m.guards t (account :: m.guards t)⟩
        (.returned none)

inductive EndScope (t : T) : Memory T A M → Phase M → Memory T A M → Phase M → Prop where
  | unlock {m : Memory T A M} {account : A} {guards : List A} (hguards : m.guards t = account :: guards) :
      EndScope t m .entry
        ⟨release m.mutex t ⟨account, ()⟩, m.balance_, Function.update m.guards t guards⟩ (.returned none)

variable [Add M] [Sub M]

def acts (t : T) : Call A M → Memory T A M → Phase M → Memory T A M → Phase M → Prop
  | .strict_lock account => StrictLock t account
  | .end_scope => EndScope t
  | .getBalance account => LockGuard t account (Read account)
  | .deposit account amount => LockGuard t account (Assign account fun b => b + amount)
  | .withdraw account amount => LockGuard t account (Assign account fun b => b - amount)
  | .depositGuarded account amount guard => DepositGuarded t account (fun b => b + amount) guard
  | .withdrawGuarded account amount guard => WithdrawGuarded t account (fun b => b - amount) guard

def code : Code T (Call A M) (Phase M) (Memory T A M) where
  entry := .entry
  Over := Phase.Over
  Acts := acts

/-- All accounts are new, nobody has a lock. -/
def start [Zero M] : Memory T A M := ⟨fun _ => .free, fun _ => 0, fun _ => []⟩

/-- The amount that a call deposits on an account, if it returns. -/
def deposited [Zero M] (a : A) : Call A M → Phase M → M
  | .deposit account amount, .returned _ | .depositGuarded account amount _, .returned _ =>
    if account = a then amount else 0
  | _, _ => 0

def withdrawn [Zero M] (a : A) : Call A M → Phase M → M
  | .withdraw account amount, .returned _ | .withdrawGuarded account amount _, .returned _ =>
    if account = a then amount else 0
  | _, _ => 0

end accelerators.bank_account
