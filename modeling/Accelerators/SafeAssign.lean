import Accelerators.Interleaving
import Accelerators.Locks.Shared

open interleaving locks

namespace accelerators.safe_assign

/-- The members `mut_` and `data_` of all objects. The elements are only
    copied, so their type does not matter. -/
structure Memory (T O V : Type) where
  mut_ : Table O (Holders T)
  data_ : O → List V

/-- Where a thread is in an assignment or construction. -/
inductive Phase where
  | entry
  | lock (swapped : Bool)
  | tryLock (swapped : Bool)
  | assign (k : Nat)
  | unlockRhs
  | unlockLhs
  | returned

variable {T O V : Type} [DecidableEq T] [DecidableEq O]

/-- The lock object that `lock(lhs_lock, rhs_lock)` waits for. -/
def pick (lhs_lock rhs_lock : Request O Mode) (swapped : Bool) : Request O Mode :=
  if swapped then rhs_lock else lhs_lock

/-- `data_ = rhs.data_`, one element after the other: the elements up to `k`
    are those of `rhs` already. -/
inductive AssignData (x y : O) : Memory T O V → Phase → Memory T O V → Phase → Prop where
  | element {m : Memory T O V} {k : Nat} {v : V} (hv : (m.data_ y)[k]? = some v) :
      AssignData x y m (.assign k)
        { m with data_ := Function.update m.data_ x ((m.data_ x).take k ++ v :: (m.data_ x).drop (k + 1)) }
        (.assign (k + 1))
  | finish {m : Memory T O V} {k : Nat} (hend : (m.data_ y)[k]? = none) :
      AssignData x y m (.assign k) { m with data_ := Function.update m.data_ x ((m.data_ x).take k) } .unlockRhs

/-- `operator=` with its two deferred locks. `lock` waits for either of them
    while it holds none, then tries the other one, and returns when it holds both.
    When it does not get the other one (`try_lock` may fail for no reason), it
    gives the first one back and begins again. -/
inductive AssignActs (lhs_lock rhs_lock : Request O Mode) (t : T) (x y : O) :
    Memory T O V → Phase → Memory T O V → Phase → Prop where
  | self {m : Memory T O V} (heq : x = y) : AssignActs lhs_lock rhs_lock t x y m .entry m .returned
  | other {m : Memory T O V} (hne : x ≠ y) (swapped : Bool) :
      AssignActs lhs_lock rhs_lock t x y m .entry m (.lock swapped)
  | lock {m : Memory T O V} {swapped : Bool} (hgrant : Grantable m.mut_ t (pick lhs_lock rhs_lock swapped)) :
      AssignActs lhs_lock rhs_lock t x y m (.lock swapped)
        { m with mut_ := grant m.mut_ t (pick lhs_lock rhs_lock swapped) } (.tryLock swapped)
  | tryLock {m : Memory T O V} {swapped : Bool} (hgrant : Grantable m.mut_ t (pick lhs_lock rhs_lock !swapped)) :
      AssignActs lhs_lock rhs_lock t x y m (.tryLock swapped)
        { m with mut_ := grant m.mut_ t (pick lhs_lock rhs_lock !swapped) } (.assign 0)
  | backOff {m : Memory T O V} {swapped : Bool} (swapped' : Bool) :
      AssignActs lhs_lock rhs_lock t x y m (.tryLock swapped)
        { m with mut_ := release m.mut_ t (pick lhs_lock rhs_lock swapped) } (.lock swapped')
  | data {m m' : Memory T O V} {p p' : Phase} (hdata : AssignData x y m p m' p') :
      AssignActs lhs_lock rhs_lock t x y m p m' p'
  | unlockRhs {m : Memory T O V} :
      AssignActs lhs_lock rhs_lock t x y m .unlockRhs { m with mut_ := release m.mut_ t rhs_lock } .unlockLhs
  | unlockLhs {m : Memory T O V} :
      AssignActs lhs_lock rhs_lock t x y m .unlockLhs { m with mut_ := release m.mut_ t lhs_lock } .returned

/-- A copy constructor that holds one lock while it copies. -/
inductive ConstructActs (lock : Request O Mode) (t : T) (x y : O) :
    Memory T O V → Phase → Memory T O V → Phase → Prop where
  | lock {m : Memory T O V} (hgrant : Grantable m.mut_ t lock) :
      ConstructActs lock t x y m .entry
        ⟨grant m.mut_ t lock, Function.update m.data_ x []⟩ (.assign 0)
  | data {m m' : Memory T O V} {p p' : Phase} (hdata : AssignData x y m p m' p') :
      ConstructActs lock t x y m p m' p'
  | unlock {m : Memory T O V} :
      ConstructActs lock t x y m .unlockRhs { m with mut_ := release m.mut_ t lock } .returned

namespace A

/-- The assignment `x = y` of two objects of class `A`. -/
abbrev Call (O : Type) := O × O

def lhs_lock (c : Call O) : Request O Mode := ⟨c.1, .exclusive⟩
def rhs_lock (c : Call O) : Request O Mode := ⟨c.2, .exclusive⟩

def code : Code T (Call O) Phase (Memory T O V) where
  entry := .entry
  Over := fun p => p = .returned
  Acts := fun t c => AssignActs (lhs_lock c) (rhs_lock c) t c.1 c.2

end A

namespace B

inductive Call (O : Type) where
  | assign (x y : O)
  | construct (x y : O)

/-- Both locks of `operator=` are made from the same `mut_`. -/
def lhs_lock (x _y : O) : Request O Mode := ⟨x, .exclusive⟩
def rhs_lock (x _y : O) : Request O Mode := ⟨x, .shared⟩

def constructLock (y : O) : Request O Mode := ⟨y, .shared⟩

def acts (t : T) : Call O → Memory T O V → Phase → Memory T O V → Phase → Prop
  | .assign x y => AssignActs (lhs_lock x y) (rhs_lock x y) t x y
  | .construct x y => ConstructActs (constructLock y) t x y

def code : Code T (Call O) Phase (Memory T O V) where
  entry := .entry
  Over := fun p => p = .returned
  Acts := acts

end B

end accelerators.safe_assign
