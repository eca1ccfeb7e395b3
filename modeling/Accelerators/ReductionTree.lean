import Mathlib.Data.Nat.Init

namespace reduction_tree

variable {R : Type}

/-- A way to reduce a range. A body gets a range as a whole, or goes on with the
    second part from its result of the first, or the second part gets a new body,
    the result of which is joined. -/
inductive Plan : Nat → Nat → Type where
  | range {b e : Nat} (hle : b ≤ e) : Plan b e
  | resume {b m e : Nat} (left : Plan b m) (right : Plan m e) : Plan b e
  | join {b m e : Nat} (left : Plan b m) (right : Plan m e) : Plan b e

theorem Plan.le {b e : Nat} (plan : Plan b e) : b ≤ e := by
  induction plan with
  | range hle => exact hle
  | resume left right hleft hright => exact Nat.le_trans hleft hright
  | join left right hleft hright => exact Nat.le_trans hleft hright

/-- `partialResult` is what the body has when it comes to the range. -/
def Plan.run (body : (b e : Nat) → b ≤ e → R → R) (identity : R) (reduction : R → R → R) {b e : Nat} :
    Plan b e → (partialResult : R) → R
  | .range hle, partialResult => body _ _ hle partialResult
  | .resume left right, partialResult =>
    right.run body identity reduction (left.run body identity reduction partialResult)
  | .join left right, partialResult =>
    reduction (left.run body identity reduction partialResult) (right.run body identity reduction identity)

/-- The first body starts with the identity. -/
def Plan.reduce (body : (b e : Nat) → b ≤ e → R → R) (identity : R) (reduction : R → R → R) {b e : Nat}
    (plan : Plan b e) : R :=
  plan.run body identity reduction identity

/-- A body that goes through its range in order, and a reduction that stands for
    going on. -/
structure Serial (body : (b e : Nat) → b ≤ e → R → R) (identity : R) (reduction : R → R → R) : Prop where
  resume : ∀ {b m e : Nat} (hleft : b ≤ m) (hright : m ≤ e) (r : R),
    body m e hright (body b m hleft r) = body b e (Nat.le_trans hleft hright) r
  join : ∀ {b e : Nat} (hle : b ≤ e) (r : R), reduction r (body b e hle identity) = body b e hle r

/-- The result does not depend on the plan. -/
theorem Plan.run_eq {body : (b e : Nat) → b ≤ e → R → R} {identity : R} {reduction : R → R → R}
    (hserial : Serial body identity reduction) {b e : Nat} (plan : Plan b e) (r : R) :
    plan.run body identity reduction r = body b e plan.le r := by
  induction plan generalizing r with
  | range hle => rfl
  | resume left right hleft hright => rw [run, hleft, hright, hserial.resume]
  | join left right hleft hright => rw [run, hleft, hright, hserial.join, hserial.resume]

end reduction_tree
