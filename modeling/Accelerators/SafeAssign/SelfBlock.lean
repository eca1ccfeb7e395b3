import Accelerators.SafeAssign.Exclusion

open interleaving locks transition_system

namespace accelerators.safe_assign.B

variable {T O V : Type} [DecidableEq T] [DecidableEq O]

/-- The phases of an assignment before `lock` returns. -/
def Locking : Phase → Prop
  | .entry | .lock _ | .tryLock _ => True
  | _ => False

/-- The thread executes an assignment of two different objects and has not got
    both locks. -/
def Stuck (x y : O) (rest : List (Call O)) (thread : Thread (Call O) Phase) : Prop :=
  thread.calls = .assign x y :: rest ∧ Locking thread.phase

/-- Both lock objects want the same mutex, one of them for itself alone. -/
theorem not_grantable_second {table : Table O (Holders T)} {threads : T → Thread (Call O) Phase} {t : T} {x y : O}
    {rest : List (Call O)} {swapped : Bool} (h : Accounts table (holdings held threads))
    (hthread : threads t = ⟨.assign x y :: rest, .tryLock swapped⟩) :
    ¬ Grantable table t (pick (lhs_lock x y) (rhs_lock x y) !swapped) := by
  have hheld : holdings held threads t = [pick (lhs_lock x y) (rhs_lock x y) swapped] := by
    simp [holdings, hthread, held, Phase.held]
  cases swapped with
  | false => exact h.not_grantable (hheld ▸ List.mem_singleton_self _) (.inl rfl)
  | true => exact h.not_grantable (hheld ▸ List.mem_singleton_self _) (.inr rfl)

/-- An action of a stuck assignment leaves it before the end of `lock`. -/
theorem locking_of_acts {s : Config T (Call O) Phase (Memory T O V)} {t : T} {x y : O} {rest : List (Call O)}
    {p p' : Phase} {m' : Memory T O V} (hthread : s.threads t = ⟨.assign x y :: rest, p⟩) (hp : Locking p)
    (hne : x ≠ y) (haccounts : Accounts s.memory.mut_ (holdings held s.threads))
    (hacts : AssignActs (lhs_lock x y) (rhs_lock x y) t x y s.memory p m' p') : Locking p' := by
  cases hacts with
  | self heq => exact absurd heq hne
  | other _ swapped => exact trivial
  | lock hgrant => exact trivial
  | tryLock hgrant => exact absurd hgrant (not_grantable_second haccounts hthread)
  | backOff swapped' => exact trivial
  | data hdata => cases hdata <;> exact hp.elim
  | unlockRhs => exact hp.elim
  | unlockLhs => exact hp.elim

/-- No action of any thread gets a stuck assignment out of `lock`. -/
theorem Stuck.step {s s' : Config T (Call O) Phase (Memory T O V)} {t : T} {x y : O} {rest : List (Call O)}
    (h : Stuck x y rest (s.threads t)) (hne : x ≠ y) (haccounts : Accounts s.memory.mut_ (holdings held s.threads))
    (hstep : code.Step s s') : Stuck x y rest (s'.threads t) := by
  obtain ⟨hcalls, hlocking⟩ := h
  obtain ⟨u, c, rest', p, p', hturn⟩ := hstep.turn
  by_cases htu : t = u
  · subst htu
    rw [hturn.thread] at hcalls hlocking
    obtain ⟨rfl, rfl⟩ := List.cons.inj hcalls
    have hlocking' := locking_of_acts hturn.thread hlocking hne haccounts hturn.acts
    obtain ⟨-, hafter⟩ | ⟨hover, -⟩ := hturn.after
    · rw [hafter]
      exact ⟨rfl, hlocking'⟩
    · obtain rfl : p' = .returned := hover
      exact hlocking'.elim
  · rw [hturn.others t htu]
    exact ⟨hcalls, hlocking⟩

/-- A thread whose next call is an assignment of two different objects is stuck
    in it, however it came there. -/
theorem stuck_of_reachable {program : T → List (Call O)} {m : Memory T O V} (hfree : ∀ l, m.mut_ l = .shared [])
    {s : Config T (Call O) Phase (Memory T O V)} (h : code.Reachable program m s) {t : T} {x y : O}
    {rest : List (Call O)} (hne : x ≠ y) (hcalls : (s.threads t).calls = .assign x y :: rest) :
    Stuck x y rest (s.threads t) := by
  have hlocking := h.locally (fun _ c p _ => ∀ x y, c = .assign x y → x ≠ y → Locking p)
    (fun _ _ _ _ _ _ _ => trivial) ?_ (fun _ _ _ _ _ _ _ _ _ _ _ _ hat => hat)
  · exact ⟨hcalls, hlocking t _ rest _ (by rw [← hcalls]) x y rfl hne⟩
  · rintro s s' t c rest p p' hreachable hturn hat x y rfl hne
    exact locking_of_acts hturn.thread (hat x y rfl hne) hne (accounts hfree hreachable) hturn.acts

theorem stuck_of_run {program : T → List (Call O)} {m : Memory T O V} (hfree : ∀ l, m.mut_ l = .shared [])
    {s s' : Config T (Call O) Phase (Memory T O V)} {k : Nat} (h : code.Reachable program m s) {t : T} {x y : O}
    {rest : List (Call O)} (hne : x ≠ y) (hcalls : (s.threads t).calls = .assign x y :: rest)
    (hrun : Run code.Step k s s') : Stuck x y rest (s'.threads t) := by
  induction hrun with
  | refl => exact stuck_of_reachable hfree h hne hcalls
  | tail hrun hlast ih => exact (ih h hcalls).step hne (accounts hfree (h.run hrun)) hlast

/-- Thread `t` can get to the end of its assignment `x = y`: the elements are
    copied, `y` is as before, and the thread holds no lock. -/
def CanComplete (s : Config T (Call O) Phase (Memory T O V)) (t : T) (x y : O) (rest : List (Call O)) : Prop :=
  ∃ k s', Run code.Step k s s' ∧ s'.threads t = ⟨rest, .entry⟩ ∧
    s'.memory.data_ x = s'.memory.data_ y ∧ s'.memory.data_ y = s.memory.data_ y ∧
    ∀ l mode, (s'.memory.mut_ l).count t mode = 0

theorem not_canComplete {program : T → List (Call O)} {m : Memory T O V} (hfree : ∀ l, m.mut_ l = .shared [])
    {s : Config T (Call O) Phase (Memory T O V)} (h : code.Reachable program m s) {t : T} {x y : O}
    {rest : List (Call O)} (hne : x ≠ y) (hcalls : (s.threads t).calls = .assign x y :: rest) :
    ¬ CanComplete s t x y rest := by
  rintro ⟨k, s', hrun, hthread, -⟩
  have hcalls' := (stuck_of_run hfree h hne hcalls hrun).1
  rw [hthread] at hcalls'
  exact List.cons_ne_self _ _ hcalls'.symm

/-- An assignment of two different objects stays in `lock` for ever: it copies
    nothing and cannot be completed, whoever holds the locks. -/
theorem assign_never_completes {program : T → List (Call O)} {m : Memory T O V}
    (hfree : ∀ l, m.mut_ l = .shared []) {s : Config T (Call O) Phase (Memory T O V)}
    (h : code.Reachable program m s) {t : T} {x y : O} {rest : List (Call O)} (hne : x ≠ y)
    (hcalls : (s.threads t).calls = .assign x y :: rest) :
    (∀ k s', Run code.Step k s s' → Stuck x y rest (s'.threads t)) ∧ ¬ CanComplete s t x y rest :=
  ⟨fun _ _ hrun => stuck_of_run hfree h hne hcalls hrun, not_canComplete hfree h hne hcalls⟩

/-- One thread with two objects and nobody else around. -/
def alone : Config Unit (Call Bool) Phase (Memory Unit Bool Nat) :=
  code.start (fun _ => [.assign false true]) ⟨fun _ => .shared [], fun _ => []⟩

theorem assign_never_completes_alone :
    (∀ k s', Run code.Step k alone s' → Stuck false true [] (s'.threads ())) ∧
      ¬ CanComplete alone () false true [] :=
  assign_never_completes (fun _ => rfl) ⟨0, .refl _⟩ (by decide) rfl

/-- Nobody holds a lock, and still the assignment cannot be completed. -/
theorem alone_not_canComplete :
    (∀ l t mode, (alone.memory.mut_ l).count t mode = 0) ∧ (alone.threads ()).calls = [.assign false true] ∧
      ¬ CanComplete alone () false true [] := by
  refine ⟨fun l t mode => ?_, rfl, not_canComplete (fun _ => rfl) ⟨0, .refl _⟩ (by decide) rfl⟩
  simp [alone, Code.start, Holders.count]

end accelerators.safe_assign.B
