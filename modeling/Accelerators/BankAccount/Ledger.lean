import Mathlib.Algebra.BigOperators.Group.List.Basic
import Mathlib.Algebra.Ring.Int.Defs
import Accelerators.BankAccount.Guards
import Accelerators.Interleaving.Linearization

open interleaving locks transition_system

namespace accelerators.bank_account

variable {T A M : Type} [DecidableEq T] [DecidableEq A] [AddCommGroup M] {m m' : Memory T A M} {t u : T} {a a' : A}
  {c : Call A M} {rest : List (Call A M)} {p p' : Phase M}

/-- The account whose balance a call assigns to. -/
def Call.target : Call A M → Option A
  | .deposit account _ | .withdraw account _ | .depositGuarded account _ _ | .withdrawGuarded account _ _ =>
    some account
  | .strict_lock _ | .end_scope | .getBalance _ => none

/-- What a call adds to the balance of `a`. -/
def Call.change (a : A) : Call A M → M
  | .deposit account amount | .depositGuarded account amount _ => if account = a then amount else 0
  | .withdraw account amount | .withdrawGuarded account amount _ => if account = a then -amount else 0
  | .strict_lock _ | .end_scope | .getBalance _ => 0

omit [DecidableEq T] in
theorem Call.change_of_ne (htarget : c.target = some a) (hne : a' ≠ a) : c.change a' = 0 := by
  cases c <;> simp_all [Call.target, Call.change, Ne.symm hne]

/-- A call is in the books from its write on. -/
def posted (c : Call A M) (p : Phase M) : List (Call A M) :=
  match c.target, p with
  | some _, .exit _ | some _, .returned _ => [c]
  | _, _ => []

/-- An action leaves the balances alone, or it writes one of them. -/
inductive Balances (c : Call A M) (m : Memory T A M) : Phase M → Memory T A M → Phase M → Prop where
  | quiet {m' : Memory T A M} {p p' : Phase M} (hbalance : m'.balance_ = m.balance_)
      (hposted : posted c p' = posted c p)
      (hread : ∀ b a, p' = .write b → c.target = some a → b = m.balance_ a) : Balances c m p m' p'
  | write {m' : Memory T A M} {a : A} {b : M} (htarget : c.target = some a)
      (hbalance : m'.balance_ = Function.update m.balance_ a (b + c.change a)) :
      Balances c m (.write b) m' (.exit none)

omit [DecidableEq T] in
theorem Assign.balances {f : M → M} (htarget : c.target = some a) (hf : ∀ b, f b = b + c.change a)
    (h : Assign a f m p m' p') : Balances c m p m' p' := by
  cases h with
  | read =>
    refine .quiet rfl (by simp [posted]) ?_
    intro b a' hwrite htarget'
    obtain rfl : a = a' := Option.some.inj (htarget.symm.trans htarget')
    exact (Phase.write.inj hwrite).symm
  | write => exact .write htarget (by rw [hf])

theorem LockGuard.balances {body : Memory T A M → Phase M → Memory T A M → Phase M → Prop}
    (hbody : ∀ {m p m' p'}, body m p m' p' → Balances c m p m' p') (h : LockGuard t a body m p m' p') :
    Balances c m p m' p' := by
  cases h with
  | lock hgrant => exact .quiet rfl (by simp [posted]) (by simp)
  | body h => exact hbody h
  | unlock => exact .quiet rfl (by cases htarget : c.target <;> simp [posted, htarget]) (by simp)

theorem balances (h : acts t c m p m' p') : Balances c m p m' p' := by
  cases c with
  | strict_lock account =>
    cases h
    exact .quiet rfl rfl (by simp)
  | end_scope =>
    cases h
    exact .quiet rfl rfl (by simp)
  | getBalance account =>
    refine LockGuard.balances (fun hread => ?_) h
    cases hread
    exact .quiet rfl rfl (by simp)
  | deposit account amount => exact LockGuard.balances (Assign.balances rfl (by simp [Call.change])) h
  | withdraw account amount =>
    exact LockGuard.balances (Assign.balances rfl (by simp [Call.change, sub_eq_add_neg])) h
  | depositGuarded account amount guard =>
    cases h with
    | body hbody => exact hbody.balances rfl (by simp [Call.change])
    | _ => exact .quiet rfl rfl (by simp)
  | withdrawGuarded account amount guard =>
    cases h with
    | body hbody => exact hbody.balances rfl (by simp [Call.change, sub_eq_add_neg])
    | _ => exact .quiet rfl rfl (by simp)

variable {program : T → List (Call A M)} {s s' : Config T (Call A M) (Phase M) (Memory T A M)}

/-- The mutexes of a thread in a reachable state. -/
def owned (s : Config T (Call A M) (Phase M) (Memory T A M)) (t : T) : List (Request A Unit) :=
  kept s.memory t ++ holdings held s.threads t

theorem accounts (h : guardedCode.Reachable program start s) : Accounts s.memory.mutex (owned s) :=
  (disciplined.restrict MayWithdraw).accounts (fun _ _ => rfl) h

/-- Whoever is about to write a balance owns the mutex of the account. -/
theorem owned_of_write {b : M} (h : guardedCode.Reachable program m s)
    (hthread : s.threads t = ⟨c :: rest, .write b⟩) (htarget : c.target = some a) : ⟨a, ()⟩ ∈ owned s t := by
  have hrelied := relied_of_reachable h t c rest _ hthread
  cases c with
  | deposit account amount | withdraw account amount =>
    obtain rfl := Option.some.inj htarget
    simp [owned, holdings, hthread, held, Phase.inside]
  | depositGuarded account amount guard | withdrawGuarded account amount guard =>
    obtain rfl := Option.some.inj htarget
    have hguard := hrelied account (by simp [relied, Phase.inside])
    simp [owned, kept, hguard]
  | _ => cases htarget

/-- The balances agree with the books, and so does what a thread has read and is
    about to write back. -/
structure Balanced (order : List (T × Call A M)) (s : Config T (Call A M) (Phase M) (Memory T A M)) : Prop where
  balance : ∀ a, s.memory.balance_ a = ((order.map Prod.snd).map (Call.change a)).sum
  read : ∀ t c rest b a, s.threads t = ⟨c :: rest, .write b⟩ → c.target = some a → b = s.memory.balance_ a

/-- Nobody else is about to write the account that a thread writes. -/
theorem Balanced.turn {order : List (T × Call A M)} (h : Balanced order s)
    (hreachable : guardedCode.Reachable program start s) (hturn : guardedCode.Turn s s' t c rest p p') :
    ∃ added, posted c p' = posted c p ++ added ∧ Balanced (order ++ added.map (Prod.mk t)) s' := by
  have hbalances := balances hturn.acts.2
  generalize hm' : s'.memory = m' at hbalances
  cases hbalances with
  | quiet hbalance hposted hread =>
    refine ⟨[], by simpa using hposted, ?_⟩
    rw [List.map_nil, List.append_nil]
    constructor
    · intro a
      rw [hm', hbalance, h.balance]
    · intro u c' rest' b a hthread htarget
      rw [hm', hbalance]
      by_cases hut : u = t
      · subst hut
        obtain ⟨rfl, -, hp'⟩ := hturn.eq_of_thread hthread (by simp [guardedCode, Code.restrict, code])
        exact hread b a hp'.symm htarget
      · exact h.read u c' rest' b a ((hturn.others u hut).symm.trans hthread) htarget
  | @write _ a b htarget hbalance =>
    have hb := h.read t c rest b a hturn.thread htarget
    refine ⟨[c], by simp [posted, htarget], ?_⟩
    constructor
    · intro a'
      rw [hm', hbalance]
      by_cases ha : a' = a
      · subst ha
        simp [hb, h.balance]
      · simp [ha, h.balance, Call.change_of_ne htarget ha]
    · intro u c' rest' b' a' hthread htarget'
      rw [hm', hbalance]
      by_cases hut : u = t
      · subst hut
        cases (hturn.eq_of_thread hthread (by simp [guardedCode, Code.restrict, code])).2.2
      · have hthread' := (hturn.others u hut).symm.trans hthread
        have ha : a' ≠ a := by
          rintro rfl
          exact hut ((accounts hreachable).owner_unique (owned_of_write hreachable hturn.thread htarget)
            (owned_of_write hreachable hthread' htarget'))
        rw [Function.update_of_ne ha]
        exact h.read u c' rest' b' a' hthread' htarget'

theorem exists_balanced (h : guardedCode.Reachable program start s) :
    ∃ order, Code.Orders posted order s ∧ Balanced order s := by
  refine h.exists_order ?_ Balanced ⟨fun a => rfl, ?_⟩ ?_
  · intro c
    cases c <;> rfl
  · intro t c rest b a hthread
    cases (Thread.mk.inj hthread).2
  · intro order s s' t c rest p p' hreachable hbalanced hturn
    exact hbalanced.turn hreachable hturn

omit [DecidableEq T] in
/-- What the books say about a call that is over. -/
theorem sum_posted (hover : p.Over) (a : A) :
    ((posted c p).map (Call.change a)).sum = deposited a c p - withdrawn a c p := by
  cases p with
  | returned result => cases c <;> simp [posted, Call.target, Call.change, deposited, withdrawn, neg_ite]
  | thrown => cases c <;> simp [posted, Call.target, deposited, withdrawn]
  | _ => cases hover

omit [DecidableEq T] in
theorem sum_completed {history : List (T × Call A M × Phase M)} (hover : ∀ e ∈ history, e.2.2.Over) (a : A) :
    (((history.flatMap fun e => (posted e.2.1 e.2.2).map (Prod.mk e.1)).map Prod.snd).map (Call.change a)).sum =
      (history.map fun e => deposited a e.2.1 e.2.2).sum - (history.map fun e => withdrawn a e.2.1 e.2.2).sum := by
  induction history with
  | nil => simp
  | cons e history ih =>
    have hhead := sum_posted (c := e.2.1) (hover e List.mem_cons_self) a
    have htail := ih fun e' he' => hover e' (List.mem_cons_of_mem _ he')
    rw [List.flatMap_cons, List.map_append, List.map_append, List.sum_append, htail, List.map_map, List.map_map,
      List.map_cons, List.map_cons, List.sum_cons, List.sum_cons, add_sub_add_comm, ← hhead]
    rfl

/-- As long as threads withdraw with a guard only from accounts that they have
    locked, no update is lost: between the calls every balance is what has been
    deposited less what has been withdrawn. -/
theorem balance_eq (h : guardedCode.Reachable program start s) (hidle : ∀ t, (s.threads t).phase = .entry) (a : A) :
    s.memory.balance_ a = (s.history.map fun e => deposited a e.2.1 e.2.2).sum -
      (s.history.map fun e => withdrawn a e.2.1 e.2.2).sum := by
  obtain ⟨order, horder, hbalanced⟩ := exists_balanced h
  have hperm : order.Perm (Code.completed posted s) := by
    refine horder.perm fun t c rest p hthread => ?_
    obtain rfl : p = .entry := by simpa [hthread] using hidle t
    cases c <;> rfl
  rw [hbalanced.balance, ((hperm.map Prod.snd).map (Call.change a)).sum_eq]
  exact sum_completed h.history_over a

theorem balance_eq_of_guarded_withdrawal : ∃ s : Config Unit (Call Bool Int) (Phase Int) (Memory Unit Bool Int),
    s.history.length = 2 ∧ s.memory.balance_ true = (s.history.map fun e => deposited true e.2.1 e.2.2).sum -
      (s.history.map fun e => withdrawn true e.2.1 e.2.2).sum := by
  have hstart : Run (guardedCode (T := Unit) (A := Bool) (M := Int)).Step 0
      (guardedCode.start (fun _ => [.strict_lock true, .withdrawGuarded true 5 true]) start) _ := .refl _
  have hmay (mutex : Table Bool (Recursive Unit)) (balance : Bool → Int) :
      MayWithdraw () (.withdrawGuarded true (5 : Int) true)
        ⟨mutex, balance, Function.update (fun _ => []) () [true]⟩ := by
    rintro account amount guard ⟨⟩
    exact List.mem_cons_self
  have hlock := hstart.tail (.leave (t := ()) rfl ⟨by rintro _ _ _ ⟨⟩, StrictLock.lock trivial⟩ trivial)
  have henter := hlock.tail (.inside (t := ()) rfl ⟨hmay _ _, WithdrawGuarded.enter List.mem_cons_self⟩ not_false)
  have hread := henter.tail (.inside (t := ()) rfl ⟨hmay _ _, WithdrawGuarded.body .read⟩ not_false)
  have hwrite := hread.tail (.inside (t := ()) rfl ⟨hmay _ _, WithdrawGuarded.body .write⟩ not_false)
  have hexit := hwrite.tail (.leave (t := ()) rfl ⟨hmay _ _, WithdrawGuarded.exit⟩ trivial)
  exact ⟨_, rfl, balance_eq ⟨_, hexit⟩ (fun t => rfl) true⟩

/-- One thread withdraws from an account with a guard on another one, while a
    second thread deposits. -/
def lostUpdate : Bool → List (Call Bool Int)
  | true => [.strict_lock false, .withdrawGuarded true 5 false]
  | false => [.deposit true 7]

/-- The withdrawal reads the balance before the deposit and writes it after. -/
theorem deposit_lost : ∃ s, code.Reachable lostUpdate start s ∧ (∀ t, s.threads t = ⟨[], .entry⟩) ∧
    s.memory.balance_ true ≠ (s.history.map fun e => deposited true e.2.1 e.2.2).sum -
      (s.history.map fun e => withdrawn true e.2.1 e.2.2).sum := by
  have hstart : Run code.Step 0 (code.start lostUpdate start) _ := .refl _
  have hlock := hstart.tail (.leave (t := true) rfl (StrictLock.lock trivial) trivial)
  have henter := hlock.tail (.inside (t := true) rfl (WithdrawGuarded.enter List.mem_cons_self) not_false)
  have hread := henter.tail (.inside (t := true) rfl (WithdrawGuarded.body .read) not_false)
  have hlock' := hread.tail (.inside (t := false) rfl (LockGuard.lock trivial) not_false)
  have hread' := hlock'.tail (.inside (t := false) rfl (LockGuard.body .read) not_false)
  have hwrite' := hread'.tail (.inside (t := false) rfl (LockGuard.body .write) not_false)
  have hunlock' := hwrite'.tail (.leave (t := false) rfl LockGuard.unlock trivial)
  have hwrite := hunlock'.tail (.inside (t := true) rfl (WithdrawGuarded.body .write) not_false)
  have hexit := hwrite.tail (.leave (t := true) rfl WithdrawGuarded.exit trivial)
  refine ⟨_, ⟨_, hexit⟩, ?_, ?_⟩
  · intro t
    cases t <;> rfl
  · decide

end accelerators.bank_account
