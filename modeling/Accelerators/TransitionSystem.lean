import Mathlib.Data.Nat.Init

namespace transition_system

variable {S : Type} {step : S → S → Prop} {s t u : S} {k : Nat}

/-- `k` steps lead from one state to another. -/
inductive Run (step : S → S → Prop) : Nat → S → S → Prop where
  | refl (s : S) : Run step 0 s s
  | tail {k : Nat} {s t u : S} (hrun : Run step k s t) (hstep : step t u) : Run step (k + 1) s u

/-- What every step keeps is true in every state of a run. -/
theorem Run.invariant {Inv : S → Prop} (hrun : Run step k s t)
    (hpreserved : ∀ s t, Inv s → step s t → Inv t) (hs : Inv s) : Inv t := by
  induction hrun with
  | refl s => exact hs
  | tail hrun hstep ih => exact hpreserved _ _ (ih hs) hstep

/-- A run is no longer than a measure that every step lowers. -/
theorem Run.length_le {measure : S → Nat} (hrun : Run step k s t)
    (hdecreases : ∀ s t, step s t → measure t < measure s) : k + measure t ≤ measure s := by
  induction hrun with
  | refl s => exact Nat.le_of_eq (Nat.zero_add _)
  | tail hrun hstep ih =>
    have hlt := hdecreases _ _ hstep
    omega

/-- A run that starts in an invariant keeps to it. -/
theorem Run.restrict {Inv : S → Prop} (hrun : Run step k s t) (hpreserved : ∀ s t, Inv s → step s t → Inv t)
    (hs : Inv s) : Run (fun s t => Inv s ∧ step s t) k s t := by
  induction hrun with
  | refl s => exact .refl s
  | tail hrun hstep ih => exact (ih hs).tail ⟨hrun.invariant hpreserved hs, hstep⟩

theorem Run.map {S' : Type} {step' : S' → S' → Prop} {f : S → S'} (hrun : Run step k s t)
    (hf : ∀ s t, step s t → step' (f s) (f t)) : Run step' k (f s) (f t) := by
  induction hrun with
  | refl s => exact .refl (f s)
  | tail hrun hstep ih => exact ih.tail (hf _ _ hstep)

theorem Run.mono {step' : S → S → Prop} (hrun : Run step k s t) (hmono : ∀ s t, step s t → step' s t) :
    Run step' k s t := hrun.map hmono

theorem Run.head (hstep : step s t) (hrun : Run step k t u) : Run step (k + 1) s u := by
  induction hrun with
  | refl t => exact .tail (.refl s) hstep
  | tail hrun hlast ih => exact .tail (ih hstep) hlast

theorem Run.trans {j : Nat} (hrun : Run step j s t) (hrun' : Run step k t u) : Run step (j + k) s u := by
  induction hrun' with
  | refl t => exact hrun
  | tail hrun' hstep ih => exact (ih hrun).tail hstep

/-- A run that leads elsewhere begins with a step. -/
theorem Run.exists_step (hrun : Run step k s t) (hne : s ≠ t) : ∃ u, step s u := by
  induction hrun with
  | refl s => exact absurd rfl hne
  | @tail k s t u hrun hstep ih =>
    by_cases hst : s = t
    · exact ⟨u, hst ▸ hstep⟩
    · exact ih hst

/-- With a measure that every step lowers, every state leads to one without steps. -/
theorem exists_final {measure : S → Nat} (hdecreases : ∀ s t, step s t → measure t < measure s) (s : S) :
    ∃ k t, Run step k s t ∧ ∀ u, ¬ step t u := by
  induction hmeasure : measure s using Nat.strongRecOn generalizing s with
  | ind n ih =>
    by_cases hfinal : ∃ t, step s t
    · obtain ⟨t, hstep⟩ := hfinal
      obtain ⟨k, u, hrun, hu⟩ := ih (measure t) (hmeasure ▸ hdecreases s t hstep) t rfl
      exact ⟨k + 1, u, hrun.head hstep, hu⟩
    · exact ⟨0, s, .refl s, fun t hstep => hfinal ⟨t, hstep⟩⟩

end transition_system
