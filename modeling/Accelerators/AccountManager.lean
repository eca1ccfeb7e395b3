import Accelerators.Interleaving
import Accelerators.Locks.Shared

open interleaving locks

namespace accelerators.account_manager

/-- The mutexes and the balances of the two accounts of every manager. Amounts
    are only added and subtracted, so their type does not matter. -/
structure Memory (T O M : Type) where
  mutex : Table O (Holders T)
  checkAcct_ : O → M
  savingAcct_ : O → M

/-- `manager.Checking2Saving(amount)`. -/
structure Checking2Saving (O M : Type) where
  manager : O
  amount : M

/-- Where a thread is in a transfer: `balance_ -= amount` and `balance_ += amount`
    read first and then write. -/
inductive Phase (M : Type) where
  | entry
  | withdraw
  | withdrawn (b : M)
  | deposit
  | deposited (b : M)
  | unlock
  | returned

variable {T O M : Type} [DecidableEq T] [DecidableEq O] [Add M] [Sub M]

def guard (c : Checking2Saving O M) : Request O Mode := ⟨c.manager, .exclusive⟩

/-- Both calls of `get` accept the guard, as it locks the owner of the accounts. -/
inductive Acts (t : T) (c : Checking2Saving O M) : Memory T O M → Phase M → Memory T O M → Phase M → Prop where
  | lock {m : Memory T O M} (hgrant : Grantable m.mutex t (guard c)) :
      Acts t c m .entry { m with mutex := grant m.mutex t (guard c) } .withdraw
  | withdraw {m : Memory T O M} : Acts t c m .withdraw m (.withdrawn (m.checkAcct_ c.manager))
  | withdrawn {m : Memory T O M} {b : M} :
      Acts t c m (.withdrawn b)
        { m with checkAcct_ := Function.update m.checkAcct_ c.manager (b - c.amount) } .deposit
  | deposit {m : Memory T O M} : Acts t c m .deposit m (.deposited (m.savingAcct_ c.manager))
  | deposited {m : Memory T O M} {b : M} :
      Acts t c m (.deposited b)
        { m with savingAcct_ := Function.update m.savingAcct_ c.manager (b + c.amount) } .unlock
  | unlock {m : Memory T O M} :
      Acts t c m .unlock { m with mutex := release m.mutex t (guard c) } .returned

def code : Code T (Checking2Saving O M) (Phase M) (Memory T O M) where
  entry := .entry
  Over := fun p => p = .returned
  Acts := Acts

/-- The mutexes are free, and the balances are whatever they are. -/
def start (checkAcct_ savingAcct_ : O → M) : Memory T O M := ⟨fun _ => .shared [], checkAcct_, savingAcct_⟩

end accelerators.account_manager
