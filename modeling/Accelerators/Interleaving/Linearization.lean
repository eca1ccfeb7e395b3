import Mathlib.Data.List.Basic
import Mathlib.Data.List.Count
import Accelerators.Interleaving

open transition_system

namespace interleaving.Code

variable {T C P M E : Type} [DecidableEq T] {code : Code T C P M} {effects : C → P → List E}
  {order : List (T × E)} {s : Config T C P M} {t : T} {c : C} {rest : List C} {p p' : P}

/-- What a thread has done to the memory: the effects of its calls that are
    over, and those of the call in progress up to its present phase. -/
def executed (effects : C → P → List E) (s : Config T C P M) (t : T) : List E :=
  (s.history.filter fun e => e.1 = t).flatMap (fun e => effects e.2.1 e.2.2) ++
    match s.threads t with
    | ⟨[], _⟩ => []
    | ⟨c :: _, p⟩ => effects c p

/-- An order of all effects in which those of each thread stand in its own order. -/
def Orders (effects : C → P → List E) (order : List (T × E)) (s : Config T C P M) : Prop :=
  ∀ t, (order.filter fun e => e.1 = t).map Prod.snd = executed effects s t

theorem filter_append_effects (order : List (T × E)) (t u : T) (added : List E) :
    ((order ++ added.map (Prod.mk t)).filter fun e => e.1 = u).map Prod.snd =
      (order.filter fun e => e.1 = u).map Prod.snd ++ if t = u then added else [] := by
  by_cases htu : t = u <;> simp [List.filter_map, Function.comp_def, htu]

theorem Orders.inside (h : Orders effects order s) (hthread : s.threads t = ⟨c :: rest, p⟩) {added : List E}
    (hadded : effects c p' = effects c p ++ added) (m' : M) :
    Orders effects (order ++ added.map (Prod.mk t))
      ⟨m', Function.update s.threads t ⟨c :: rest, p'⟩, s.history⟩ := by
  intro u
  rw [filter_append_effects, h u]
  obtain rfl | hne := eq_or_ne u t
  · simp [executed, hthread, hadded]
  · simp [executed, hne, hne.symm]

theorem Orders.leave (h : Orders effects order s) (hthread : s.threads t = ⟨c :: rest, p⟩) {added : List E}
    (hadded : effects c p' = effects c p ++ added) (hentry : ∀ c, effects c code.entry = []) (m' : M) :
    Orders effects (order ++ added.map (Prod.mk t))
      ⟨m', Function.update s.threads t ⟨rest, code.entry⟩, s.history ++ [(t, c, p')]⟩ := by
  intro u
  rw [filter_append_effects, h u]
  obtain rfl | hne := eq_or_ne u t
  · cases rest <;> simp [executed, hthread, hadded, hentry]
  · simp [executed, hne, hne.symm]

/-- The turn of a thread adds its effects to the order. -/
theorem Orders.step {s' : Config T C P M} (h : Orders effects order s) (hstep : code.Step s s')
    (hentry : ∀ c, effects c code.entry = []) (Inv : List (T × E) → Config T C P M → Prop)
    (hturn : ∀ t c rest p p', code.Turn s s' t c rest p p' →
      ∃ added, effects c p' = effects c p ++ added ∧ Inv (order ++ added.map (Prod.mk t)) s') :
    ∃ later, Orders effects (order ++ later) s' ∧ Inv (order ++ later) s' := by
  cases hstep with
  | @inside t c rest p p' m' hthread hacts hover =>
    obtain ⟨added, hadded, hinv⟩ := hturn t c rest p p'
      ⟨hthread, hacts, fun u hne => Function.update_of_ne hne _ _, .inl ⟨hover, Function.update_self ..⟩⟩
    exact ⟨_, h.inside hthread hadded m', hinv⟩
  | @leave t c rest p p' m' hthread hacts hover =>
    obtain ⟨added, hadded, hinv⟩ := hturn t c rest p p'
      ⟨hthread, hacts, fun u hne => Function.update_of_ne hne _ _, .inr ⟨hover, Function.update_self ..⟩⟩
    exact ⟨_, h.leave hthread hadded hentry m', hinv⟩

/-- Every action that adds an effect has its place in the order: an invariant of
    the order and the state that all turns keep holds for some order of the
    effects of a reachable state. -/
theorem Reachable.exists_order {program : T → List C} {m : M} (h : code.Reachable program m s)
    (hentry : ∀ c, effects c code.entry = []) (Inv : List (T × E) → Config T C P M → Prop)
    (hstart : Inv [] (code.start program m))
    (hturn : ∀ order s s' t c rest p p', code.Reachable program m s → Inv order s →
      code.Turn s s' t c rest p p' →
      ∃ added, effects c p' = effects c p ++ added ∧ Inv (order ++ added.map (Prod.mk t)) s') :
    ∃ order, Orders effects order s ∧ Inv order s := by
  refine h.invariant (fun s => ∃ order, Orders effects order s ∧ Inv order s) ⟨[], ?_, hstart⟩ ?_
  · intro t
    cases hprogram : program t <;> simp [executed, start, hprogram, hentry]
  · rintro s s' hreachable ⟨order, horder, hinv⟩ hstep
    obtain ⟨later, horder', hinv'⟩ := horder.step hstep hentry Inv fun t c rest p p' hturn' =>
      hturn order s s' t c rest p p' hreachable hinv hturn'
    exact ⟨order ++ later, horder', hinv'⟩

/-- The order of a reachable state is the beginning of one of every later state. -/
theorem Orders.extend (horder : Orders effects order s) {program : T → List C} {m : M}
    (h : code.Reachable program m s) (hentry : ∀ c, effects c code.entry = [])
    (Inv : List (T × E) → Config T C P M → Prop) (hinv : Inv order s)
    (hturn : ∀ order s s' t c rest p p', code.Reachable program m s → Inv order s →
      code.Turn s s' t c rest p p' →
      ∃ added, effects c p' = effects c p ++ added ∧ Inv (order ++ added.map (Prod.mk t)) s')
    {k : Nat} {s' : Config T C P M} (hrun : Run code.Step k s s') :
    ∃ later, Orders effects (order ++ later) s' ∧ Inv (order ++ later) s' := by
  induction hrun with
  | refl s => exact ⟨[], by rwa [List.append_nil], by rwa [List.append_nil]⟩
  | tail hrun hstep ih =>
    obtain ⟨later, horder', hinv'⟩ := ih horder h hinv
    obtain ⟨later', horder'', hinv''⟩ := horder'.step hstep hentry Inv fun t c rest p p' hturn' =>
      hturn _ _ _ t c rest p p' (h.run hrun) hinv' hturn'
    rw [List.append_assoc] at horder'' hinv''
    exact ⟨later ++ later', horder'', hinv''⟩

/-- The effects of the calls that are over, as the history lists them. -/
def completed (effects : C → P → List E) (s : Config T C P M) : List (T × E) :=
  s.history.flatMap fun e => (effects e.2.1 e.2.2).map (Prod.mk e.1)

theorem filter_completed (effects : C → P → List E) (history : List (T × C × P)) (t : T) :
    ((history.flatMap fun e => (effects e.2.1 e.2.2).map (Prod.mk e.1)).filter fun e => e.1 = t).map Prod.snd =
      (history.filter fun e => e.1 = t).flatMap fun e => effects e.2.1 e.2.2 := by
  induction history with
  | nil => rfl
  | cons e history ih =>
    rw [List.flatMap_cons, List.filter_append, List.map_append, ih]
    by_cases het : e.1 = t <;> simp [List.filter_map, Function.comp_def, het]

omit [DecidableEq T] in
theorem count_eq_count_filter [DecidableEq T] [DecidableEq E] (order : List (T × E)) (t : T) (e : E) :
    order.count (t, e) = ((order.filter fun e => e.1 = t).map Prod.snd).count e := by
  induction order with
  | nil => rfl
  | cons head order ih =>
    obtain ⟨u, e'⟩ := head
    by_cases hut : u = t <;> simp [List.count_cons, hut, ih]

/-- When no call in progress has had an effect, the order is one of the effects
    of the calls that are over. -/
theorem Orders.perm (h : Orders effects order s)
    (hquiet : ∀ t c rest p, s.threads t = ⟨c :: rest, p⟩ → effects c p = []) :
    order.Perm (completed effects s) := by
  classical
  rw [List.perm_iff_count]
  rintro ⟨t, e⟩
  rw [count_eq_count_filter, count_eq_count_filter, h t, completed, filter_completed, executed]
  cases hthread : s.threads t with
  | mk calls p =>
    cases calls with
    | nil => simp
    | cons c rest => simp [hquiet t c rest p hthread]

end interleaving.Code
