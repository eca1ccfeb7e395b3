import Mathlib.Order.Lattice
import Mathlib.Data.Nat.Init

namespace operator_precedence

variable {Op Tree Prec : Type} [LinearOrder Prec]

/-- The parts of an operator chain around its rightmost operator of minimal
    precedence: what stands before it, the operator with the operand to its
    right, and what stands after that operand. -/
def splitMin (prec : Op → Prec) :
    List (Op × Tree) → Option (List (Op × Tree) × (Op × Tree) × List (Op × Tree))
  | [] => none
  | x :: xs =>
    match splitMin prec xs with
    | none => some ([], x, [])
    | some (before, y, after) =>
      if prec x.1 < prec y.1 then some ([], x, xs) else some (x :: before, y, after)

theorem splitMin_eq_none {prec : Op → Prec} {ops : List (Op × Tree)}
    (h : splitMin prec ops = none) : ops = [] := by
  cases ops with
  | nil => rfl
  | cons x xs =>
    unfold splitMin at h
    split at h
    · cases h
    · split at h <;> cases h

theorem splitMin_eq_some {prec : Op → Prec} {ops before after : List (Op × Tree)} {x : Op × Tree}
    (h : splitMin prec ops = some (before, x, after)) :
    ops = before ++ x :: after ∧ (∀ y ∈ before, prec x.1 ≤ prec y.1) ∧
      ∀ y ∈ after, prec x.1 < prec y.1 := by
  induction ops generalizing before x after with
  | nil => cases h
  | cons z zs ih =>
    unfold splitMin at h
    split at h
    · rename_i htail
      cases h
      simp [splitMin_eq_none htail]
    · rename_i before' y after' htail
      obtain ⟨hzs, hbefore, hafter⟩ := ih htail
      split at h
      · rename_i hlt
        cases h
        refine ⟨rfl, by simp, ?_⟩
        intro w hw
        rw [hzs] at hw
        obtain hw | hw := List.mem_append.mp hw
        · exact lt_of_lt_of_le hlt (hbefore w hw)
        · obtain rfl | hw := List.mem_cons.mp hw
          · exact hlt
          · exact lt_trans hlt (hafter w hw)
      · rename_i hle
        cases h
        refine ⟨by rw [hzs]; rfl, ?_, hafter⟩
        intro w hw
        obtain rfl | hw := List.mem_cons.mp hw
        · exact not_lt.mp hle
        · exact hbefore w hw

/-- A chain has only one operator that is minimal and strictly below all
    operators to its right. -/
theorem splitMin_append {prec : Op → Prec} {before after : List (Op × Tree)} {x : Op × Tree}
    (hbefore : ∀ y ∈ before, prec x.1 ≤ prec y.1) (hafter : ∀ y ∈ after, prec x.1 < prec y.1) :
    splitMin prec (before ++ x :: after) = some (before, x, after) := by
  induction before with
  | nil =>
    cases htail : splitMin prec after with
    | none => simp [splitMin, splitMin_eq_none htail]
    | some parts =>
      obtain ⟨l, y, r⟩ := parts
      have hmem : y ∈ after := by simp [(splitMin_eq_some htail).1]
      simp [splitMin, htail, hafter y hmem]
  | cons z zs ih =>
    have htail := ih (fun y hy => hbefore y (List.mem_cons_of_mem _ hy))
    have hz : ¬ prec z.1 < prec x.1 := not_lt.mpr (hbefore z List.mem_cons_self)
    simp [splitMin, htail, hz]

/-- The tree an operator chain denotes: the first operand when there is no
    operator, otherwise a node at the rightmost operator of minimal precedence
    over the trees of the chains on its two sides. -/
def refTree (prec : Op → Prec) (node : Op → Tree → Tree → Tree)
    (operand : Tree) (ops : List (Op × Tree)) : Tree :=
  match _h : splitMin prec ops with
  | none => operand
  | some (before, (op, next), after) =>
    node op (refTree prec node operand before) (refTree prec node next after)
termination_by ops.length
decreasing_by
  all_goals
    rw [(splitMin_eq_some _h).1]
    simp only [List.length_append, List.length_cons]
    omega

variable {prec : Op → Prec} {node : Op → Tree → Tree → Tree}

@[simp]
theorem refTree_nil (operand : Tree) : refTree prec node operand [] = operand := by
  unfold refTree
  split
  · rfl
  · rename_i h
    cases h

theorem refTree_append {operand next : Tree} {op : Op} {before after : List (Op × Tree)}
    (hbefore : ∀ y ∈ before, prec op ≤ prec y.1) (hafter : ∀ y ∈ after, prec op < prec y.1) :
    refTree prec node operand (before ++ (op, next) :: after) =
      node op (refTree prec node operand before) (refTree prec node next after) := by
  have hsplit := splitMin_append (x := (op, next)) hbefore hafter
  rw [refTree]
  split
  · rename_i h
    rw [hsplit] at h
    cases h
  · rename_i h
    rw [hsplit] at h
    cases h
    rfl

/-- Reducing an operator early is harmless: when all operators of `tight` bind
    tighter than `op` and the chain goes on with an operator that does not, the
    node for `op` can stand as the first operand of what follows. -/
theorem refTree_reduce {operand next : Tree} {op : Op} {tight : List (Op × Tree)}
    (htight : ∀ y ∈ tight, prec op < prec y.1) (rest : List (Op × Tree))
    (hrest : ∀ y ∈ rest.head?, prec y.1 ≤ prec op) :
    refTree prec node operand ((op, next) :: (tight ++ rest)) =
      refTree prec node (node op operand (refTree prec node next tight)) rest := by
  -- strong induction on what follows: its minimal operator is minimal in the whole chain
  induction hlen : rest.length using Nat.strong_induction_on generalizing rest with
  | _ len ih =>
    cases hsplit : splitMin prec rest with
    | none =>
      rw [splitMin_eq_none hsplit]
      have h : refTree prec node operand ([] ++ (op, next) :: tight) =
          node op (refTree prec node operand []) (refTree prec node next tight) :=
        refTree_append (by simp) htight
      simpa using h
    | some parts =>
      obtain ⟨before, ⟨low, operand'⟩, after⟩ := parts
      obtain ⟨hparts, hbefore, hafter⟩ := splitMin_eq_some hsplit
      have hlow : prec low ≤ prec op := by
        cases before with
        | nil => exact hrest (low, operand') (by simp [hparts])
        | cons y ys =>
          have hy := hbefore y List.mem_cons_self
          exact hy.trans (hrest y (by simp [hparts]))
      have hhead : ∀ y ∈ before.head?, prec y.1 ≤ prec op := by
        intro y hy
        apply hrest y
        cases before with
        | nil => cases hy
        | cons z zs => simpa [hparts] using hy
      have hwhole : ∀ y ∈ (op, next) :: (tight ++ before), prec low ≤ prec y.1 := by
        intro y hy
        obtain rfl | hy := List.mem_cons.mp hy
        · exact hlow
        · obtain hy | hy := List.mem_append.mp hy
          · exact hlow.trans (htight y hy).le
          · exact hbefore y hy
      have hleft := ih before.length (by simp [← hlen, hparts]) before hhead rfl
      have hsplitWhole : refTree prec node operand
            (((op, next) :: (tight ++ before)) ++ (low, operand') :: after) =
          node low (refTree prec node operand ((op, next) :: (tight ++ before)))
            (refTree prec node operand' after) :=
        refTree_append hwhole hafter
      rw [hparts, refTree_append hbefore hafter, ← hleft, ← hsplitWhole]
      simp

end operator_precedence
