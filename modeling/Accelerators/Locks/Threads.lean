import Accelerators.Interleaving
import Accelerators.Locks

open interleaving

namespace locks

variable {T C P M L X Mode : Type} [DecidableEq T] [DecidableEq L] [DecidableEq Mode] [LockKind X T Mode]

/-- What a thread holds in the call in progress, given what a call holds in each
    of its phases. -/
def holdings (held : C → P → List (Request L Mode)) (threads : T → Thread C P) (t : T) : List (Request L Mode) :=
  match (threads t).calls with
  | [] => []
  | c :: _ => held c (threads t).phase

/-- An action leaves the locks alone, gets one, or gives one back. -/
inductive Effect (t : T) (table : Table L X) (hold : List (Request L Mode)) :
    Table L X → List (Request L Mode) → Prop where
  | none {hold' : List (Request L Mode)} (hperm : hold'.Perm hold) : Effect t table hold table hold'
  | grant {r : Request L Mode} {hold' : List (Request L Mode)} (hgrant : Grantable table t r)
      (hperm : hold'.Perm (r :: hold)) : Effect t table hold (grant table t r) hold'
  | release {r : Request L Mode} {hold' : List (Request L Mode)} (hheld : r ∈ hold)
      (hperm : hold'.Perm (hold.erase r)) : Effect t table hold (release table t r) hold'

/-- The actor's new locks are accounted for, and so are those of the others, who
    hold what they held. -/
theorem Accounts.effect {table table' : Table L X} {held held' : T → List (Request L Mode)}
    (h : Accounts table held) (t : T) (heffect : Effect t table (held t) table' (held' t))
    (hothers : ∀ u, u ≠ t → held' u = held u) : Accounts table' held' := by
  have hheld' : held' = Function.update held t (held' t) := by
    funext u
    obtain rfl | hne := eq_or_ne u t
    · simp
    · simp [hne, hothers u hne]
  generalize held' t = hold' at heffect hheld'
  subst hheld'
  cases heffect with
  | none hperm =>
    refine h.congr fun u r => ?_
    obtain rfl | hne := eq_or_ne u t
    · simp [hperm.count_eq]
    · simp [hne]
  | grant hgrant hperm =>
    refine (h.grant hgrant).congr fun u r => ?_
    obtain rfl | hne := eq_or_ne u t
    · simp only [Function.update_self, hperm.count_eq]
    · simp [hne]
  | release hheld hperm =>
    refine (h.release hheld).congr fun u r => ?_
    obtain rfl | hne := eq_or_ne u t
    · simp only [Function.update_self, hperm.count_eq]
    · simp [hne]

/-- Code whose actions say what they hold: beside the locks that the thread
    keeps from call to call, nothing when a call begins or is over, and in
    between as much as they get and do not give back. -/
structure Disciplined (code : Code T C P M) (table : M → Table L X) (kept : M → T → List (Request L Mode))
    (held : C → P → List (Request L Mode)) : Prop where
  entry : ∀ c, held c code.entry = []
  finish : ∀ c p, code.Over p → held c p = []
  effect : ∀ {t c m p m' p'}, code.Acts t c m p m' p' →
    Effect t (table m) (kept m t ++ held c p) (table m') (kept m' t ++ held c p')
  kept_others : ∀ {t c m p m' p'}, code.Acts t c m p m' p' → ∀ u, u ≠ t → kept m' u = kept m u

variable {code : Code T C P M} {table : M → Table L X} {kept : M → T → List (Request L Mode)}
  {held : C → P → List (Request L Mode)}

theorem Disciplined.restrict (h : Disciplined code table kept held) (May : T → C → M → Prop) :
    Disciplined (code.restrict May) table kept held where
  entry := h.entry
  finish := h.finish
  effect := fun hacts => h.effect hacts.2
  kept_others := fun hacts => h.kept_others hacts.2

/-- The locks are held by the threads that say so, in every reachable state. -/
theorem Disciplined.accounts (hcode : Disciplined code table kept held) {program : T → List C} {m : M}
    (hstart : Accounts (table m) (kept m)) {s : Config T C P M} (h : code.Reachable program m s) :
    Accounts (table s.memory) (fun t => kept s.memory t ++ holdings held s.threads t) := by
  refine h.invariant (fun s => Accounts (table s.memory) (fun t => kept s.memory t ++ holdings held s.threads t))
    ?_ ?_
  · refine hstart.congr fun t r => ?_
    cases hprogram : program t <;> simp [holdings, Code.start, hprogram, hcode.entry]
  · rintro s s' - ih hstep
    cases hstep with
    | @inside t c rest p p' m' hthread hacts hover =>
      refine ih.effect t ?_ ?_
      · simpa [holdings, hthread] using hcode.effect hacts
      · intro u hne
        simp [holdings, hne, hcode.kept_others hacts u hne]
    | @leave t c rest p p' m' hthread hacts hover =>
      have hhold : holdings held s.threads t = held c p := by simp [holdings, hthread]
      have hnone : holdings held (Function.update s.threads t ⟨rest, code.entry⟩) t = held c p' := by
        rw [hcode.finish c p' hover]
        cases rest <;> simp [holdings, hcode.entry]
      refine ih.effect t ?_ ?_
      · rw [hhold, hnone]
        exact hcode.effect hacts
      · intro u hne
        simp [holdings, hne, hcode.kept_others hacts u hne]

end locks
