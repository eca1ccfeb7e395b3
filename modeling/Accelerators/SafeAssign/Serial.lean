import Accelerators.Interleaving.Linearization
import Accelerators.SafeAssign.Exclusion

open interleaving locks transition_system

namespace accelerators.safe_assign.A

variable {T O V : Type} [DecidableEq T] [DecidableEq O] {s s' : Config T (Call O) Phase (Memory T O V)}
  {t u : T} {x y x' y' : O} {rest rest' : List (Call O)} {k k' : Nat} {p p' : Phase} {data : O → List V}
  {order : List (T × Call O)}

/-- An assignment is in the memory from the end of its copy on. -/
def assigned (c : Call O) : Phase → List (Call O)
  | .unlockRhs | .unlockLhs | .returned => [c]
  | .entry | .lock _ | .tryLock _ | .assign _ => []

/-- The assignments one after another. -/
def replay (assignments : List (Call O)) (data : O → List V) : O → List V :=
  assignments.foldl (fun data c => Function.update data c.1 (data c.2)) data

theorem replay_append (assignments : List (Call O)) (c : Call O) (data : O → List V) :
    replay (assignments ++ [c]) data =
      Function.update (replay assignments data) c.1 (replay assignments data c.2) := by
  simp [replay]

/-- A thread is about to copy into `z`. -/
def Writes (s : Config T (Call O) Phase (Memory T O V)) (z : O) : Prop :=
  ∃ t y rest k, s.threads t = ⟨(z, y) :: rest, .assign k⟩

/-- What nobody writes is the outcome of the assignments in order, and what is
    being written agrees with its source as far as the copy has come. -/
structure Serial (data : O → List V) (order : List (T × Call O)) (s : Config T (Call O) Phase (Memory T O V)) :
    Prop where
  settled : ∀ z, ¬ Writes s z → s.memory.data_ z = replay (order.map Prod.snd) data z
  copied : ∀ t x y rest k, s.threads t = ⟨(x, y) :: rest, .assign k⟩ →
    (s.memory.data_ x).take k = (s.memory.data_ y).take k ∧ k ≤ (s.memory.data_ y).length

omit [DecidableEq T] [DecidableEq O] in
theorem holdings_copy (hthread : s.threads t = ⟨(x, y) :: rest, .assign k⟩) :
    holdings held s.threads t = [⟨y, .exclusive⟩, ⟨x, .exclusive⟩] := by
  simp [holdings, hthread, held, Phase.held, lhs_lock, rhs_lock]

/-- A mutex is locked once, so the copy is between two objects. -/
theorem copy_ne (h : Accounts s.memory.mut_ (holdings held s.threads))
    (hthread : s.threads t = ⟨(x, y) :: rest, .assign k⟩) : x ≠ y := by
  rintro rfl
  have hcount := h.count_exclusive_le t x
  simp [holdings_copy hthread] at hcount

/-- No two threads copy with an object in common. -/
theorem copy_disjoint (h : Accounts s.memory.mut_ (holdings held s.threads))
    (hthread : s.threads t = ⟨(x, y) :: rest, .assign k⟩)
    (hother : s.threads u = ⟨(x', y') :: rest', .assign k'⟩)
    (hne : u ≠ t) : x' ≠ x ∧ x' ≠ y ∧ y' ≠ x := by
  have hdisjoint : ∀ l, (⟨l, .exclusive⟩ : Request O Mode) ∈ holdings held s.threads t →
      ⟨l, .exclusive⟩ ∉ holdings held s.threads u := fun l ht hu => hne (h.exclusion ht hu).1
  have hx := hdisjoint x (by simp [holdings_copy hthread])
  have hy := hdisjoint y (by simp [holdings_copy hthread])
  simp only [holdings_copy hother, List.mem_cons, Request.mk.injEq, and_true, List.not_mem_nil, or_false,
    not_or] at hx hy
  exact ⟨Ne.symm hx.2, Ne.symm hy.2, Ne.symm hx.1⟩

/-- Who writes is not changed by the turn of another thread. -/
theorem writes_of_turn {c : Call O} {z : O} (h : code.Turn s s' t c rest p p') (hwrites : Writes s z)
    (hbefore : ∀ k, p = .assign k → z ≠ c.1) : Writes s' z := by
  obtain ⟨u, y, rest', k, hthread⟩ := hwrites
  by_cases hut : u = t
  · subst hut
    rw [h.thread, Thread.mk.injEq, List.cons.injEq] at hthread
    obtain ⟨⟨rfl, rfl⟩, rfl⟩ := hthread
    exact absurd rfl (hbefore k rfl)
  · exact ⟨u, y, rest', k, (h.others u hut).trans hthread⟩

/-- A turn in which nothing is copied keeps the invariant. -/
theorem Serial.quiet {c : Call O} (h : Serial data order s) (hturn : code.Turn s s' t c rest p p')
    (hdata : s'.memory.data_ = s.memory.data_) (hbefore : ∀ k, p ≠ .assign k)
    (hafter : ∀ k, p' = .assign k → k = 0) :
    Serial data order s' where
  settled := by
    intro z hz
    rw [hdata]
    exact h.settled z fun hwrites => hz (writes_of_turn hturn hwrites fun k hk => absurd hk (hbefore k))
  copied := by
    intro u x y rest' k hcopy
    rw [hdata]
    by_cases hut : u = t
    · subst hut
      obtain rfl := hafter k (hturn.eq_of_thread hcopy (by simp [code])).2.2.symm
      simp
    · exact h.copied u x y rest' k ((hturn.others u hut).symm.trans hcopy)

/-- The copies of the other threads are not touched by the copy into `x`. -/
theorem Serial.copied_others {c : Call O} (h : Serial data order s) (hturn : code.Turn s s' t c rest (.assign k) p')
    (haccounts : Accounts s.memory.mut_ (holdings held s.threads))
    (hdata : ∀ z, z ≠ c.1 → s'.memory.data_ z = s.memory.data_ z) (hut : u ≠ t)
    (hcopy : s'.threads u = ⟨(x', y') :: rest', .assign k'⟩) :
    (s'.memory.data_ x').take k' = (s'.memory.data_ y').take k' ∧ k' ≤ (s'.memory.data_ y').length := by
  have hcopy' := (hturn.others u hut).symm.trans hcopy
  obtain ⟨hx, -, hy⟩ := copy_disjoint haccounts hturn.thread hcopy' hut
  rw [hdata x' hx, hdata y' hy]
  exact h.copied u x' y' rest' k' hcopy'

theorem take_element {v : V} {old source : List V} {k : Nat} (hold : old.take k = source.take k)
    (hle : k ≤ source.length) (hv : source[k]? = some v) :
    (old.take k ++ v :: old.drop (k + 1)).take (k + 1) = source.take (k + 1) := by
  have hlength : (old.take k).length = k := by simp [hold, hle]
  rw [List.take_append, hlength, List.take_of_length_le (by omega), List.take_add_one, hv, hold]
  simp

/-- One element more is copied. -/
theorem Serial.element {v : V} (h : Serial data order s)
    (hturn : code.Turn s s' t (x, y) rest (.assign k) (.assign (k + 1)))
    (haccounts : Accounts s.memory.mut_ (holdings held s.threads)) (hv : (s.memory.data_ y)[k]? = some v)
    (hdata : s'.memory.data_ = Function.update s.memory.data_ x
      ((s.memory.data_ x).take k ++ v :: (s.memory.data_ x).drop (k + 1))) : Serial data order s' := by
  have hother : ∀ z, z ≠ x → s'.memory.data_ z = s.memory.data_ z := fun z hz => by simp [hdata, hz]
  obtain ⟨-, hthread⟩ | ⟨hover, -⟩ := hturn.after
  · constructor
    · intro z hz
      have hzx : z ≠ x := by
        rintro rfl
        exact hz ⟨t, y, rest, k + 1, hthread⟩
      rw [hother z hzx]
      exact h.settled z fun hwrites => hz (writes_of_turn hturn hwrites fun _ _ => hzx)
    · intro u x' y' rest' k' hcopy
      by_cases hut : u = t
      · subst hut
        obtain ⟨heq, -, hk⟩ := hturn.eq_of_thread hcopy (by simp [code])
        obtain ⟨rfl, rfl⟩ := Prod.mk.inj heq
        obtain rfl := Phase.assign.inj hk
        obtain ⟨htake, hle⟩ := h.copied u x' y' rest k hturn.thread
        rw [hother y' (copy_ne haccounts hturn.thread).symm, hdata, Function.update_self]
        exact ⟨take_element htake hle hv, (List.getElem?_eq_some_iff.mp hv).1⟩
      · exact h.copied_others hturn haccounts hother hut hcopy
  · cases hover

/-- The copy is complete: the assignment takes its place in the order. -/
theorem Serial.finish (h : Serial data order s) (hturn : code.Turn s s' t (x, y) rest (.assign k) .unlockRhs)
    (haccounts : Accounts s.memory.mut_ (holdings held s.threads)) (hend : (s.memory.data_ y)[k]? = none)
    (hdata : s'.memory.data_ = Function.update s.memory.data_ x ((s.memory.data_ x).take k)) :
    Serial data (order ++ [(t, x, y)]) s' := by
  have hother : ∀ z, z ≠ x → s'.memory.data_ z = s.memory.data_ z := fun z hz => by simp [hdata, hz]
  obtain ⟨htake, hle⟩ := h.copied t x y rest k hturn.thread
  have hsource : ¬ Writes s y := by
    rintro ⟨u, y', rest', k', hcopy⟩
    by_cases hut : u = t
    · subst hut
      rw [hturn.thread, Thread.mk.injEq, List.cons.injEq, Prod.mk.injEq] at hcopy
      exact copy_ne haccounts hturn.thread hcopy.1.1.1
    · exact (copy_disjoint haccounts hturn.thread hcopy hut).2.1 rfl
  have hcopied : s'.memory.data_ x = s.memory.data_ y := by
    rw [hdata, Function.update_self, htake]
    exact List.take_of_length_le (List.getElem?_eq_none_iff.mp hend)
  constructor
  · intro z hz
    rw [List.map_append, List.map_singleton, replay_append]
    by_cases hzx : z = x
    · subst hzx
      rw [Function.update_self, hcopied, h.settled y hsource]
    · rw [Function.update_of_ne hzx, hother z hzx]
      exact h.settled z fun hwrites => hz (writes_of_turn hturn hwrites fun _ _ => hzx)
  · intro u x' y' rest' k' hcopy
    by_cases hut : u = t
    · subst hut
      cases (hturn.eq_of_thread hcopy (by simp [code])).2.2
    · exact h.copied_others hturn haccounts hother hut hcopy

/-- Every turn keeps the invariant, for the order that ends with the assignment
    if the turn finishes it. -/
theorem Serial.turn {c : Call O} (h : Serial data order s) (hturn : code.Turn s s' t c rest p p')
    (haccounts : Accounts s.memory.mut_ (holdings held s.threads)) :
    ∃ added, assigned c p' = assigned c p ++ added ∧ Serial data (order ++ added.map (Prod.mk t)) s' := by
  obtain ⟨x, y⟩ := c
  have hacts : AssignActs (lhs_lock (x, y)) (rhs_lock (x, y)) t x y s.memory p s'.memory p' := hturn.acts
  generalize hm' : s'.memory = m' at hacts
  have hquiet (hdata : m'.data_ = s.memory.data_) := h.quiet hturn (hm' ▸ hdata)
  cases hacts with
  | self heq =>
    refine ⟨[(x, y)], rfl, ?_⟩
    subst heq
    obtain ⟨hsettled, hcopied⟩ := hquiet rfl (by simp) (by simp)
    refine ⟨fun z hz => ?_, hcopied⟩
    rw [List.map_append, List.map_singleton, List.map_singleton, replay_append, Function.update_eq_self]
    exact hsettled z hz
  | other hne swapped => exact ⟨[], rfl, by simpa using hquiet rfl (by simp) (by simp)⟩
  | lock hgrant => exact ⟨[], rfl, by simpa using hquiet rfl (by simp) (by simp)⟩
  | tryLock hgrant => exact ⟨[], rfl, by simpa using hquiet rfl (by simp) (by simp)⟩
  | backOff swapped' => exact ⟨[], rfl, by simpa using hquiet rfl (by simp) (by simp)⟩
  | unlockRhs => exact ⟨[], rfl, by simpa using hquiet rfl (by simp) (by simp)⟩
  | unlockLhs => exact ⟨[], rfl, by simpa using hquiet rfl (by simp) (by simp)⟩
  | data hdata =>
    cases hdata with
    | element hv => exact ⟨[], rfl, by simpa using h.element hturn haccounts hv (by rw [hm'])⟩
    | finish hend => exact ⟨[(x, y)], rfl, h.finish hturn haccounts hend (by rw [hm'])⟩

/-- Every reachable state has an order of its assignments. -/
theorem exists_serial {program : T → List (Call O)} {m : Memory T O V} (hfree : ∀ l, m.mut_ l = .shared [])
    (h : code.Reachable program m s) : ∃ order, Code.Orders assigned order s ∧ Serial m.data_ order s := by
  refine h.exists_order (fun c => rfl) (Serial m.data_) ⟨fun z hz => rfl, ?_⟩ ?_
  · intro t x y rest k hcopy
    cases (Thread.mk.inj hcopy).2
  · intro order s s' t c rest p p' hreachable hserial hturn
    exact hserial.turn hturn (accounts hfree hreachable)

/-- Where no mutex is locked no assignment is in progress beyond `lock`. -/
theorem phase_of_free (haccounts : Accounts s.memory.mut_ (holdings held s.threads))
    (hfree : ∀ l, s.memory.mut_ l = .shared []) {c : Call O} (hreturned : p ≠ .returned)
    (hthread : s.threads t = ⟨c :: rest, p⟩) : assigned c p = [] ∧ ∀ k, p ≠ .assign k := by
  have hnone : p.held (lhs_lock c) (rhs_lock c) = [] := by
    apply List.eq_nil_iff_forall_not_mem.mpr
    intro r hr
    exact haccounts.not_mem_of_free (t := t) (hfree r.lock) (by simpa [holdings, hthread, held] using hr)
  cases p <;> simp_all [assigned, Phase.held]

omit [DecidableEq T] [DecidableEq O] in
theorem completed_assigned {history : List (T × Call O × Phase)} (hover : ∀ e ∈ history, e.2.2 = .returned) :
    (history.flatMap fun e => (assigned e.2.1 e.2.2).map (Prod.mk e.1)) = history.map fun e => (e.1, e.2.1) := by
  induction history with
  | nil => rfl
  | cons e history ih =>
    rw [List.flatMap_cons, hover e List.mem_cons_self, ih fun e' he' => hover e' (List.mem_cons_of_mem _ he')]
    rfl

theorem serial_of_free {program : T → List (Call O)} {m : Memory T O V} (hstart : ∀ l, m.mut_ l = .shared [])
    (h : code.Reachable program m s) (hfree : ∀ l, s.memory.mut_ l = .shared []) :
    ∃ order : List (T × Call O), order.Perm (s.history.map fun e => (e.1, e.2.1)) ∧
      s.memory.data_ = replay (order.map Prod.snd) m.data_ := by
  have haccounts := accounts hstart h
  have hreturned : ∀ t, (s.threads t).phase ≠ .returned := h.not_over (by simp [code])
  have hquiet : ∀ t c rest p, s.threads t = ⟨c :: rest, p⟩ → assigned c p = [] ∧ ∀ k, p ≠ .assign k :=
    fun t c rest p hthread => phase_of_free haccounts hfree (by simpa [hthread] using hreturned t) hthread
  obtain ⟨order, horder, hserial⟩ := exists_serial hstart h
  refine ⟨order, ?_, funext fun z => hserial.settled z ?_⟩
  · have hperm := horder.perm fun t c rest p hthread => (hquiet t c rest p hthread).1
    rwa [Code.completed, completed_assigned h.history_over] at hperm
  · rintro ⟨t, y, rest, k, hthread⟩
    exact (hquiet t (z, y) rest _ hthread).2 k rfl

end accelerators.safe_assign.A
