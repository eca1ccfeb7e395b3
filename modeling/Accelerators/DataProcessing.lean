import Accelerators.Interleaving
import Accelerators.Locks.Condition
import Accelerators.Locks.Shared

open interleaving locks

namespace accelerators.data_processing

/-- The mutex, the condition variable and the flag. -/
structure Memory (T : Type) where
  mut_ : Table Unit (Holders T)
  cond : Condition T
  data_ready : Bool

inductive Call where
  | wait_for_data_to_process
  | prepare_data_for_processing
  deriving DecidableEq, Repr

/-- Where a thread is in a call. A thread in `wait` is blocked, or it has been
    woken up and has not got the mutex back. -/
inductive Phase where
  | entry
  | loop
  | wait
  | process_data
  | unlock
  | set
  | unlockGuard
  | notify_one
  | returned
  deriving DecidableEq, Repr

variable {T : Type} [DecidableEq T]

def lock : Request Unit Mode := ⟨(), .exclusive⟩

/-- `while(!data_ready) cond.wait(lock)`, with wakeups for no reason if they
    are `spurious`. -/
inductive WaitActs (spurious : Prop) (t : T) : Memory T → Phase → Memory T → Phase → Prop where
  | lock {m : Memory T} (hgrant : Grantable m.mut_ t lock) :
      WaitActs spurious t m .entry { m with mut_ := grant m.mut_ t lock } .loop
  | ready {m : Memory T} (hready : m.data_ready = true) : WaitActs spurious t m .loop m .process_data
  | wait {m : Memory T} (hready : m.data_ready = false) :
      WaitActs spurious t m .loop { m with mut_ := release m.mut_ t lock, cond := insert t m.cond } .wait
  | wakeUp {m : Memory T} (hspurious : spurious) (ht : t ∈ m.cond) :
      WaitActs spurious t m .wait { m with cond := m.cond.erase t } .wait
  | relock {m : Memory T} (ht : t ∉ m.cond) (hgrant : Grantable m.mut_ t lock) :
      WaitActs spurious t m .wait { m with mut_ := grant m.mut_ t lock } .loop
  | process_data {m : Memory T} : WaitActs spurious t m .process_data m .unlock
  | unlock {m : Memory T} :
      WaitActs spurious t m .unlock { m with mut_ := release m.mut_ t lock } .returned

/-- `retrieve_data` and `prepare_data` have no effect. -/
inductive PrepareActs (t : T) : Memory T → Phase → Memory T → Phase → Prop where
  | lock {m : Memory T} (hgrant : Grantable m.mut_ t lock) :
      PrepareActs t m .entry { m with mut_ := grant m.mut_ t lock } .set
  | set {m : Memory T} : PrepareActs t m .set { m with data_ready := true } .unlockGuard
  | unlock {m : Memory T} :
      PrepareActs t m .unlockGuard { m with mut_ := release m.mut_ t lock } .notify_one
  | notify_one {m : Memory T} {cond : Condition T} (hnotify : NotifyOne m.cond cond) :
      PrepareActs t m .notify_one { m with cond := cond } .returned

def acts (spurious : Prop) (t : T) : Call → Memory T → Phase → Memory T → Phase → Prop
  | .wait_for_data_to_process => WaitActs spurious t
  | .prepare_data_for_processing => PrepareActs t

def code (spurious : Prop) : Code T Call Phase (Memory T) where
  entry := .entry
  Over := fun p => p = .returned
  Acts := acts spurious

/-- Nobody has the mutex or waits, and there are no data. -/
def start : Memory T := ⟨fun _ => .shared [], ∅, false⟩

end accelerators.data_processing
