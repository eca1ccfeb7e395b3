import Accelerators.BankAccount.Ledger

open interleaving locks transition_system

namespace accelerators.bank_account

variable {T A M : Type} [DecidableEq T] [DecidableEq A] [AddCommGroup M] {m m' : Memory T A M} {t u : T} {a : A}
  {c : Call A M} {rest : List (Call A M)} {p p' : Phase M} {program : T → List (Call A M)}
  {s s' : Config T (Call A M) (Phase M) (Memory T A M)} {order : List (T × Call A M × Option M)}

/-- What a call returns when no other call is in progress. -/
def Call.result (balance : A → M) : Call A M → Option M
  | .getBalance account => some (balance account)
  | _ => none

def Call.apply (balance : A → M) (c : Call A M) (a : A) : M := balance a + c.change a

/-- Calls one after the other, with what they return and the balances that they leave. -/
def OneByOne (balance : A → M) : List (Call A M × Option M) → (A → M) → Prop
  | [], final => final = balance
  | (c, result) :: calls, final => result = c.result balance ∧ OneByOne (c.apply balance) calls final

omit [DecidableEq T] in
theorem OneByOne.snoc {balance final : A → M} {calls : List (Call A M × Option M)}
    (h : OneByOne balance calls final) (c : Call A M) :
    OneByOne balance (calls ++ [(c, c.result final)]) (c.apply final) := by
  induction calls generalizing balance with
  | nil =>
    obtain rfl : final = balance := h
    exact ⟨rfl, rfl⟩
  | cons head calls ih => exact ⟨h.1, ih h.2⟩

def Phase.results : Phase M → List (Option M)
  | .exit result | .returned result => [result]
  | .entry | .read | .write _ | .thrown => []

/-- A call on a balance has taken place from its access to it on. -/
def served (c : Call A M) (p : Phase M) : List (Call A M × Option M) :=
  match c with
  | .strict_lock _ | .end_scope => []
  | c => p.results.map fun result => (c, result)

/-- An action does not come near the balances, or it is the access of its call. -/
inductive Access (c : Call A M) (m : Memory T A M) (p : Phase M) (m' : Memory T A M) (p' : Phase M) : Prop where
  | quiet (hbalance : m'.balance_ = m.balance_) (hserved : served c p' = served c p)
      (hread : ∀ b a, p' = .write b → c.target = some a → b = m.balance_ a) : Access c m p m' p'
  | read (hbalance : m'.balance_ = m.balance_) (hchange : ∀ a, c.change a = 0)
      (hserved : served c p' = served c p ++ [(c, c.result m.balance_)]) (htarget : c.target = none) :
      Access c m p m' p'
  | write {a : A} {b : M} (hwrite : p = .write b) (htarget : c.target = some a)
      (hbalance : m'.balance_ = Function.update m.balance_ a (b + c.change a))
      (hserved : served c p' = served c p ++ [(c, c.result m.balance_)]) : Access c m p m' p'

omit [DecidableEq T] in
theorem Assign.access {f : M → M} (htarget : c.target = some a) (hf : ∀ b, f b = b + c.change a)
    (h : Assign a f m p m' p') : Access c m p m' p' := by
  cases h with
  | read =>
    refine .quiet rfl (by cases c <;> rfl) ?_
    intro b a' hwrite htarget'
    obtain rfl : a = a' := Option.some.inj (htarget.symm.trans htarget')
    exact (Phase.write.inj hwrite).symm
  | write =>
    refine .write rfl htarget (by rw [hf]) ?_
    cases c with
    | strict_lock | end_scope | getBalance => cases htarget
    | _ => rfl

theorem LockGuard.access {body : Memory T A M → Phase M → Memory T A M → Phase M → Prop}
    (hbody : ∀ {m p m' p'}, body m p m' p' → Access c m p m' p') (h : LockGuard t a body m p m' p') :
    Access c m p m' p' := by
  cases h with
  | lock hgrant => exact .quiet rfl (by cases c <;> rfl) (by simp)
  | body h => exact hbody h
  | unlock => exact .quiet rfl (by cases c <;> rfl) (by simp)

theorem access (h : acts t c m p m' p') : Access c m p m' p' := by
  cases c with
  | strict_lock account =>
    cases h
    exact .quiet rfl rfl (by simp)
  | end_scope =>
    cases h
    exact .quiet rfl rfl (by simp)
  | getBalance account =>
    refine LockGuard.access (fun hread => ?_) h
    cases hread
    exact .read rfl (fun _ => rfl) rfl rfl
  | deposit account amount => exact LockGuard.access (Assign.access rfl (by simp [Call.change])) h
  | withdraw account amount =>
    exact LockGuard.access (Assign.access rfl (by simp [Call.change, sub_eq_add_neg])) h
  | depositGuarded account amount guard =>
    cases h with
    | body hbody => exact hbody.access rfl (by simp [Call.change])
    | _ => exact .quiet rfl rfl (by simp)
  | withdrawGuarded account amount guard =>
    cases h with
    | body hbody => exact hbody.access rfl (by simp [Call.change, sub_eq_add_neg])
    | _ => exact .quiet rfl rfl (by simp)

/-- The calls in the order of their accesses return what they would return one
    by one, and what a thread has read and is about to write back is still there. -/
structure Served (order : List (T × Call A M × Option M)) (s : Config T (Call A M) (Phase M) (Memory T A M)) :
    Prop where
  oneByOne : OneByOne (fun _ => 0) (order.map Prod.snd) s.memory.balance_
  read : ∀ t c rest b a, s.threads t = ⟨c :: rest, .write b⟩ → c.target = some a → b = s.memory.balance_ a

omit [DecidableEq T] in
theorem apply_eq_self {balance : A → M} (hchange : ∀ a, c.change a = 0) : c.apply balance = balance := by
  funext a
  rw [Call.apply, hchange, add_zero]

omit [DecidableEq T] in
theorem apply_eq_update {balance : A → M} (htarget : c.target = some a) :
    c.apply balance = Function.update balance a (balance a + c.change a) := by
  funext a'
  obtain rfl | hne := eq_or_ne a' a
  · rw [Function.update_self, Call.apply]
  · rw [Function.update_of_ne hne, Call.apply, Call.change_of_ne htarget hne, add_zero]

omit [DecidableEq T] in
/-- Only the account that a call writes gets another balance. -/
theorem Access.balance_of_ne (h : Access c m p m' p') (hwrite : ∀ b, p = .write b → c.target ≠ some a) :
    m'.balance_ a = m.balance_ a := by
  cases h with
  | quiet hbalance hserved hread => rw [hbalance]
  | read hbalance hchange hserved htarget => rw [hbalance]
  | @write a' b hp htarget hbalance hserved =>
    have hne : a ≠ a' := by
      rintro rfl
      exact hwrite b hp htarget
    rw [hbalance, Function.update_of_ne hne]

omit [DecidableEq T] in
/-- A call that has read a balance has got it from the memory. -/
theorem Access.read_eq {b : M} (h : Access c m p m' (.write b)) (htarget : c.target = some a) :
    b = m'.balance_ a := by
  have hnone : served c (.write b) = [] := by cases c <;> rfl
  cases h with
  | quiet hbalance hserved hread => rw [hbalance, hread b a rfl htarget]
  | read hbalance hchange hserved htarget' => cases htarget'.symm.trans htarget
  | write hp htarget' hbalance hserved => simp [hnone] at hserved

theorem Served.turn (h : Served order s) (hreachable : guardedCode.Reachable program start s)
    (hturn : guardedCode.Turn s s' t c rest p p') :
    ∃ added, served c p' = served c p ++ added ∧ Served (order ++ added.map (Prod.mk t)) s' := by
  have haccess := access hturn.acts.2
  have hread : ∀ u c' rest' b a, s'.threads u = ⟨c' :: rest', .write b⟩ → c'.target = some a →
      b = s'.memory.balance_ a := by
    intro u c' rest' b a hthread htarget
    obtain rfl | hut := eq_or_ne u t
    · obtain ⟨rfl, -, rfl⟩ := hturn.eq_of_thread hthread (by simp [guardedCode, Code.restrict, code])
      exact haccess.read_eq htarget
    · have hthread' := (hturn.others u hut).symm.trans hthread
      rw [haccess.balance_of_ne, h.read u c' rest' b a hthread' htarget]
      -- nobody else is about to write the account that a thread writes
      rintro b' rfl htarget'
      exact hut ((accounts hreachable).owner_unique (owned_of_write hreachable hturn.thread htarget')
        (owned_of_write hreachable hthread' htarget))
  cases haccess with
  | quiet hbalance hserved _ =>
    refine ⟨[], by rwa [List.append_nil], ?_, hread⟩
    rw [List.map_nil, List.append_nil, hbalance]
    exact h.oneByOne
  | read hbalance hchange hserved htarget =>
    refine ⟨_, hserved, ?_, hread⟩
    have hsnoc := h.oneByOne.snoc c
    rw [apply_eq_self hchange, ← hbalance] at hsnoc
    simpa [hbalance] using hsnoc
  | @write a b hp htarget hbalance hserved =>
    subst hp
    refine ⟨_, hserved, ?_, hread⟩
    have hsnoc := h.oneByOne.snoc c
    rw [apply_eq_update htarget, ← h.read t c rest b a hturn.thread htarget, ← hbalance] at hsnoc
    simpa using hsnoc

omit [DecidableEq A] [AddCommGroup M] in
theorem served_entry (c : Call A M) : served c .entry = [] := by
  cases c <;> rfl

/-- The calls on balances can be put in an order, in accordance with that of
    every thread, in which they return what they returned and leave the balances
    that there are when made one by one, and what comes later is added at its end. -/
theorem linearizable (h : guardedCode.Reachable program start s) :
    ∃ order, Code.Orders served order s ∧ OneByOne (fun _ => 0) (order.map Prod.snd) s.memory.balance_ ∧
      ∀ k s', Run guardedCode.Step k s s' → ∃ later, Code.Orders served (order ++ later) s' ∧
        OneByOne (fun _ => 0) ((order ++ later).map Prod.snd) s'.memory.balance_ := by
  have hturn : ∀ order s s' t c rest p p', guardedCode.Reachable program start s → Served order s →
      guardedCode.Turn s s' t c rest p p' →
      ∃ added, served c p' = served c p ++ added ∧ Served (order ++ added.map (Prod.mk t)) s' :=
    fun order s s' t c rest p p' hreachable hserved => hserved.turn hreachable
  obtain ⟨order, horder, hserved⟩ := h.exists_order served_entry Served ⟨rfl, fun t c rest b a hthread => by
    cases (Thread.mk.inj hthread).2⟩ hturn
  refine ⟨order, horder, hserved.oneByOne, fun k s' hrun => ?_⟩
  obtain ⟨later, horder', hserved'⟩ := horder.extend h served_entry Served hserved hturn hrun
  exact ⟨later, horder', hserved'.oneByOne⟩

/-- One thread withdraws under its lock, while the other one reads the balance of
    another account and then makes a deposit. -/
def guardedWithdrawal : Bool → List (Call Bool Int)
  | true => [.strict_lock true, .withdrawGuarded true 5 true, .end_scope]
  | false => [.getBalance false, .deposit true 7]

theorem linearizable_guardedWithdrawal : ∃ s : Config Bool (Call Bool Int) (Phase Int) (Memory Bool Bool Int),
    s.history = [(true, .strict_lock true, .returned none), (false, .getBalance false, .returned (some 0)),
      (true, .withdrawGuarded true 5 true, .returned none), (true, .end_scope, .returned none),
      (false, .deposit true 7, .returned none)] ∧ s.memory.balance_ true = 2 ∧
      ∃ order, Code.Orders served order s ∧ OneByOne (fun _ => 0) (order.map Prod.snd) s.memory.balance_ := by
  have hstart : Run (guardedCode (T := Bool) (A := Bool) (M := Int)).Step 0
      (guardedCode.start guardedWithdrawal start) _ := .refl _
  have hlock := hstart.tail (.leave (t := true) rfl ⟨by simp [MayWithdraw], StrictLock.lock trivial⟩ trivial)
  have henter := hlock.tail
    (.inside (t := true) rfl ⟨by simp [MayWithdraw], WithdrawGuarded.enter List.mem_cons_self⟩ not_false)
  have hread := henter.tail (.inside (t := true) rfl ⟨by simp [MayWithdraw], WithdrawGuarded.body .read⟩ not_false)
  have hlock' := hread.tail (.inside (t := false) rfl ⟨by simp [MayWithdraw], LockGuard.lock trivial⟩ not_false)
  have hread' := hlock'.tail (.inside (t := false) rfl ⟨by simp [MayWithdraw], LockGuard.body .read⟩ not_false)
  have hwrite := hread'.tail
    (.inside (t := true) rfl ⟨by simp [MayWithdraw], WithdrawGuarded.body .write⟩ not_false)
  have hunlock' := hwrite.tail (.leave (t := false) rfl ⟨by simp [MayWithdraw], LockGuard.unlock⟩ trivial)
  have hexit := hunlock'.tail (.leave (t := true) rfl ⟨by simp [MayWithdraw], WithdrawGuarded.exit⟩ trivial)
  have hunlock := hexit.tail (.leave (t := true) rfl ⟨by simp [MayWithdraw], EndScope.unlock rfl⟩ trivial)
  have hdeposit := hunlock.tail (.inside (t := false) rfl ⟨by simp [MayWithdraw], LockGuard.lock trivial⟩ not_false)
  have hadd := hdeposit.tail (.inside (t := false) rfl ⟨by simp [MayWithdraw], LockGuard.body .read⟩ not_false)
  have hstore := hadd.tail (.inside (t := false) rfl ⟨by simp [MayWithdraw], LockGuard.body .write⟩ not_false)
  have hreturn := hstore.tail (.leave (t := false) rfl ⟨by simp [MayWithdraw], LockGuard.unlock⟩ trivial)
  obtain ⟨order, horder, honeByOne, -⟩ := linearizable ⟨_, hreturn⟩
  exact ⟨_, rfl, rfl, order, horder, honeByOne⟩

end accelerators.bank_account
