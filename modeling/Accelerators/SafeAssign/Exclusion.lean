import Accelerators.Locks.Threads
import Accelerators.SafeAssign

open interleaving locks

namespace accelerators.safe_assign

variable {T O V : Type} [DecidableEq T] [DecidableEq O]

/-- The lock objects of an assignment that own their lock. -/
def Phase.held (lhs_lock rhs_lock : Request O Mode) : Phase → List (Request O Mode)
  | .tryLock swapped => [pick lhs_lock rhs_lock swapped]
  | .assign _ | .unlockRhs => [rhs_lock, lhs_lock]
  | .unlockLhs => [lhs_lock]
  | .entry | .lock _ | .returned => []

def Phase.constructHeld (lock : Request O Mode) : Phase → List (Request O Mode)
  | .assign _ | .unlockRhs => [lock]
  | _ => []

omit [DecidableEq T] in
theorem AssignData.mut_eq {x y : O} {m m' : Memory T O V} {p p' : Phase} (h : AssignData x y m p m' p') :
    m'.mut_ = m.mut_ := by
  cases h <;> rfl

theorem AssignActs.effect {lhs_lock rhs_lock : Request O Mode} {t : T} {x y : O} {m m' : Memory T O V} {p p' : Phase}
    (h : AssignActs lhs_lock rhs_lock t x y m p m' p') :
    Effect t m.mut_ (p.held lhs_lock rhs_lock) m'.mut_ (p'.held lhs_lock rhs_lock) := by
  cases h with
  | self heq => exact .none (.refl _)
  | other hne swapped => exact .none (.refl _)
  | lock hgrant => exact .grant hgrant (.refl _)
  | @tryLock swapped hgrant =>
    apply Effect.grant hgrant
    cases swapped
    · exact .refl _
    · exact .swap _ _ _
  | backOff swapped' => exact .release (List.mem_singleton_self _) (by simp [Phase.held])
  | data hdata =>
    rw [hdata.mut_eq]
    cases hdata <;> exact .none (.refl _)
  | unlockRhs => exact .release List.mem_cons_self (by simp [Phase.held])
  | unlockLhs => exact .release List.mem_cons_self (by simp [Phase.held])

theorem ConstructActs.effect {lock : Request O Mode} {t : T} {x y : O} {m m' : Memory T O V} {p p' : Phase}
    (h : ConstructActs lock t x y m p m' p') :
    Effect t m.mut_ (p.constructHeld lock) m'.mut_ (p'.constructHeld lock) := by
  cases h with
  | lock hgrant => exact .grant hgrant (.refl _)
  | data hdata =>
    rw [hdata.mut_eq]
    cases hdata <;> exact .none (.refl _)
  | unlock => exact .release List.mem_cons_self (by simp [Phase.constructHeld])

def A.held (c : A.Call O) (p : Phase) : List (Request O Mode) := p.held (A.lhs_lock c) (A.rhs_lock c)

theorem A.disciplined : Disciplined (A.code : Code T (A.Call O) Phase (Memory T O V)) Memory.mut_
    (fun _ _ => []) A.held where
  entry := fun _ => rfl
  finish := by
    rintro c p rfl
    rfl
  effect := fun hacts => hacts.effect
  kept_others := fun _ _ _ => rfl

/-- At the start all mutexes are free. -/
theorem accounts_of_free {m : Memory T O V} (hfree : ∀ l, m.mut_ l = .shared []) :
    Accounts m.mut_ (fun _ => []) := by
  intro t r
  rw [hfree]
  exact Holders.count_free

theorem A.accounts {program : T → List (A.Call O)} {m : Memory T O V} (hfree : ∀ l, m.mut_ l = .shared [])
    {s : Config T (A.Call O) Phase (Memory T O V)} (h : A.code.Reachable program m s) :
    Accounts s.memory.mut_ (holdings A.held s.threads) :=
  A.disciplined.accounts (accounts_of_free hfree) h

def B.held : B.Call O → Phase → List (Request O Mode)
  | .assign x y, p => p.held (B.lhs_lock x y) (B.rhs_lock x y)
  | .construct _ y, p => p.constructHeld (B.constructLock y)

theorem B.disciplined : Disciplined (B.code : Code T (B.Call O) Phase (Memory T O V)) Memory.mut_
    (fun _ _ => []) B.held where
  entry := by
    intro c
    cases c <;> rfl
  finish := by
    rintro c p rfl
    cases c <;> rfl
  effect := by
    intro t c m p m' p' hacts
    cases c with
    | assign x y => exact AssignActs.effect hacts
    | construct x y => exact ConstructActs.effect hacts
  kept_others := fun _ _ _ => rfl

theorem B.accounts {program : T → List (B.Call O)} {m : Memory T O V} (hfree : ∀ l, m.mut_ l = .shared [])
    {s : Config T (B.Call O) Phase (Memory T O V)} (h : B.code.Reachable program m s) :
    Accounts s.memory.mut_ (holdings B.held s.threads) :=
  B.disciplined.accounts (accounts_of_free hfree) h

end accelerators.safe_assign
