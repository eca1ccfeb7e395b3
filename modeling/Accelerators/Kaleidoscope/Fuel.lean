import Accelerators.Kaleidoscope.Runs

namespace accelerators.kaleidoscope

variable {σ V : Type} [TokenSource σ V] {prec : UInt8 → Int} {fuel more : Nat} {s : Globals σ V}

/-- What the parsing functions return with `fuel`, they return with `more`. -/
structure FuelKept (σ : Type) [TokenSource σ V] (prec : UInt8 → Int) (fuel more : Nat) : Prop where
  function : ∀ (entry : Entry V) (s : Globals σ V) out,
    entry.function prec fuel s = some out → entry.function prec more s = some out
  paren : ∀ (s : Globals σ V) out, ParseParenExpr prec fuel s = some out → ParseParenExpr prec more s = some out
  identifier : ∀ (s : Globals σ V) out,
    ParseIdentifierExpr prec fuel s = some out → ParseIdentifierExpr prec more s = some out

theorem fuelKept_zero (more : Nat) : FuelKept σ prec 0 more where
  function := by
    intro entry s out hout
    cases entry with
    | primary => simp [Entry.function, ParsePrimary] at hout
    | arguments IdName Args => simp [Entry.function, ParseArguments] at hout
    | binOpRHS ExprPrec LHS => simp [Entry.function, ParseBinOpRHS] at hout
    | expression => simp [Entry.function, ParseExpression] at hout
  paren := by
    intro s out hout
    simp [ParseParenExpr] at hout
  identifier := by
    intro s out hout
    simp [ParseIdentifierExpr] at hout

namespace FuelKept

theorem expression (h : FuelKept σ prec fuel more) {s : Globals σ V} {out : Ptr (ExprAST V) × Globals σ V}
    (hout : ParseExpression prec fuel s = some out) : ParseExpression prec more s = some out :=
  h.function .expression s out hout

theorem paren_succ (h : FuelKept σ prec fuel more) {out : Ptr (ExprAST V) × Globals σ V}
    (hout : ParseParenExpr prec (fuel + 1) s = some out) : ParseParenExpr prec (more + 1) s = some out := by
  rw [ParseParenExpr] at hout ⊢
  cases hinner : ParseExpression prec fuel (getNextToken s) with
  | none => simp [hinner] at hout
  | some r =>
    rw [hinner] at hout
    rw [h.expression hinner]
    exact hout

theorem identifier_succ (h : FuelKept σ prec fuel more) {out : Ptr (ExprAST V) × Globals σ V}
    (hout : ParseIdentifierExpr prec (fuel + 1) s = some out) :
    ParseIdentifierExpr prec (more + 1) s = some out := by
  rw [ParseIdentifierExpr] at hout ⊢
  simp only at hout ⊢
  split_ifs at hout ⊢
  · exact hout
  · exact h.function (.arguments _ _) _ _ hout
  · exact hout

theorem arguments_succ (h : FuelKept σ prec fuel more) {IdName : Str} {Args : List (ExprAST V)}
    {out : Ptr (ExprAST V) × Globals σ V} (hout : ParseArguments prec (fuel + 1) IdName Args s = some out) :
    ParseArguments prec (more + 1) IdName Args s = some out := by
  rw [ParseArguments] at hout ⊢
  cases harg : ParseExpression prec fuel s with
  | none => simp [harg] at hout
  | some r =>
    rw [harg] at hout
    rw [h.expression harg]
    obtain ⟨Arg, s'⟩ := r
    cases Arg with
    | none => exact hout
    | some Arg =>
      simp only at hout ⊢
      split_ifs at hout ⊢
      · exact hout
      · exact hout
      · exact h.function (.arguments _ _) _ _ hout

theorem primary_succ (h : FuelKept σ prec fuel more) {out : Ptr (ExprAST V) × Globals σ V}
    (hout : ParsePrimary prec (fuel + 1) s = some out) : ParsePrimary prec (more + 1) s = some out := by
  rw [ParsePrimary] at hout ⊢
  split at hout
  · exact h.identifier _ _ hout
  · exact hout
  · split_ifs at hout ⊢
    · exact h.paren _ _ hout
    · exact hout

theorem binOpRHS_succ (h : FuelKept σ prec fuel more) {ExprPrec : Int} {LHS : ExprAST V}
    {out : Ptr (ExprAST V) × Globals σ V} (hout : ParseBinOpRHS prec (fuel + 1) ExprPrec LHS s = some out) :
    ParseBinOpRHS prec (more + 1) ExprPrec LHS s = some out := by
  rw [ParseBinOpRHS] at hout ⊢
  simp only at hout ⊢
  split_ifs at hout ⊢ with hstop
  · exact hout
  cases hprimary : ParsePrimary prec fuel (getNextToken s) with
  | none => simp [hprimary] at hout
  | some r =>
    have hprimary' : ParsePrimary prec more (getNextToken s) = some r := h.function .primary _ _ hprimary
    rw [hprimary] at hout
    rw [hprimary']
    obtain ⟨RHS, s'⟩ := r
    cases RHS with
    | none => exact hout
    | some RHS =>
      simp only at hout ⊢
      split_ifs at hout ⊢ with hnext
      · cases hnested : ParseBinOpRHS prec fuel (GetTokPrecedence prec s.CurTok + 1) RHS s' with
        | none => simp [hnested] at hout
        | some r =>
          have hnested' := h.function (.binOpRHS _ _) _ _ hnested
          simp only [Entry.function] at hnested'
          rw [hnested] at hout
          rw [hnested']
          obtain ⟨RHS', s''⟩ := r
          cases RHS' with
          | none => exact hout
          | some RHS' => exact h.function (.binOpRHS _ _) _ _ hout
      · exact h.function (.binOpRHS _ _) _ _ hout

theorem expression_succ (h : FuelKept σ prec fuel more) {out : Ptr (ExprAST V) × Globals σ V}
    (hout : ParseExpression prec (fuel + 1) s = some out) : ParseExpression prec (more + 1) s = some out := by
  rw [ParseExpression] at hout ⊢
  cases hprimary : ParsePrimary prec fuel s with
  | none => simp [hprimary] at hout
  | some r =>
    have hprimary' : ParsePrimary prec more s = some r := h.function .primary _ _ hprimary
    rw [hprimary] at hout
    rw [hprimary']
    obtain ⟨LHS, s'⟩ := r
    cases LHS with
    | none => exact hout
    | some LHS => exact h.function (.binOpRHS _ _) _ _ hout

theorem succ (h : FuelKept σ prec fuel more) : FuelKept σ prec (fuel + 1) (more + 1) where
  function := by
    intro entry s out hout
    cases entry with
    | primary => exact h.primary_succ hout
    | arguments IdName Args => exact h.arguments_succ hout
    | binOpRHS ExprPrec LHS => exact h.binOpRHS_succ hout
    | expression => exact h.expression_succ hout
  paren := fun _ _ hout => h.paren_succ hout
  identifier := fun _ _ hout => h.identifier_succ hout

end FuelKept

/-- Fuel only bounds the recursion: more of it never changes a result. -/
theorem fuelKept_of_le (hle : fuel ≤ more) : FuelKept σ prec fuel more := by
  induction fuel generalizing more with
  | zero => exact fuelKept_zero more
  | succ fuel ih =>
    obtain ⟨more, rfl⟩ : ∃ n, more = n + 1 := ⟨more - 1, by omega⟩
    exact (ih (Nat.le_of_succ_le_succ hle)).succ

theorem ParseExpression_of_le (hle : fuel ≤ more) {out : Ptr (ExprAST V) × Globals σ V}
    (hout : ParseExpression prec fuel s = some out) : ParseExpression prec more s = some out :=
  (fuelKept_of_le hle).expression hout

theorem ParseArgNames_of_le (hle : fuel ≤ more) {ArgNames : List Str} {out : List Str × Globals σ V}
    (hout : ParseArgNames fuel ArgNames s = some out) : ParseArgNames more ArgNames s = some out := by
  induction fuel generalizing more ArgNames s with
  | zero => simp [ParseArgNames] at hout
  | succ fuel ih =>
    obtain ⟨more, rfl⟩ : ∃ n, more = n + 1 := ⟨more - 1, by omega⟩
    rw [ParseArgNames] at hout ⊢
    split_ifs at hout ⊢
    · exact ih (Nat.le_of_succ_le_succ hle) hout
    · exact hout

theorem ParsePrototype_of_le (hle : fuel ≤ more) {out : Ptr PrototypeAST × Globals σ V}
    (hout : ParsePrototype fuel s = some out) : ParsePrototype more s = some out := by
  rw [ParsePrototype] at hout ⊢
  simp only at hout ⊢
  split_ifs at hout ⊢
  · exact hout
  · exact hout
  · cases hargs : ParseArgNames fuel [] (getNextToken s) with
    | none => simp [hargs] at hout
    | some r =>
      rw [hargs] at hout
      rw [ParseArgNames_of_le hle hargs]
      exact hout

theorem ParseDefinition_of_le (hle : fuel ≤ more) {out : Ptr (FunctionAST V) × Globals σ V}
    (hout : ParseDefinition prec fuel s = some out) : ParseDefinition prec more s = some out := by
  rw [ParseDefinition] at hout ⊢
  cases hproto : ParsePrototype fuel (getNextToken s) with
  | none => simp [hproto] at hout
  | some r =>
    rw [hproto] at hout
    rw [ParsePrototype_of_le hle hproto]
    obtain ⟨Proto, s'⟩ := r
    cases Proto with
    | none => exact hout
    | some Proto =>
      simp only at hout ⊢
      cases hbody : ParseExpression prec fuel s' with
      | none => simp [hbody] at hout
      | some r =>
        rw [hbody] at hout
        rw [ParseExpression_of_le hle hbody]
        exact hout

theorem ParseTopLevelExpr_of_le (hle : fuel ≤ more) {out : Ptr (FunctionAST V) × Globals σ V}
    (hout : ParseTopLevelExpr prec fuel s = some out) : ParseTopLevelExpr prec more s = some out := by
  rw [ParseTopLevelExpr] at hout ⊢
  cases hbody : ParseExpression prec fuel s with
  | none => simp [hbody] at hout
  | some r =>
    rw [hbody] at hout
    rw [ParseExpression_of_le hle hbody]
    exact hout

theorem Handle_of_le {α : Type} {parsed : α → Report V} {item item' : Outcome σ V α} {s' : Globals σ V}
    (h : ∀ out, item = some out → item' = some out) (hout : Handle parsed item = some s') :
    Handle parsed item' = some s' := by
  cases item with
  | none => cases hout
  | some out =>
    rw [h out rfl]
    exact hout

theorem MainLoopBody_of_le (hle : fuel ≤ more) {s' : Globals σ V}
    (hout : MainLoopBody prec fuel s = some s') : MainLoopBody prec more s = some s' := by
  rw [MainLoopBody] at hout ⊢
  split at hout
  · apply Handle_of_le _ hout
    exact fun out => ParseDefinition_of_le hle
  · apply Handle_of_le _ hout
    exact fun out => ParsePrototype_of_le hle
  · split_ifs at hout ⊢
    · exact hout
    · apply Handle_of_le _ hout
      exact fun out => ParseTopLevelExpr_of_le hle

/-- `MainLoop` returns the same for every fuel with which it returns at all. -/
theorem MainLoop_of_le (hle : fuel ≤ more) {s' : Globals σ V}
    (hout : MainLoop prec fuel s = some s') : MainLoop prec more s = some s' := by
  induction fuel generalizing more s with
  | zero => cases hout
  | succ fuel ih =>
    obtain ⟨more, rfl⟩ : ∃ n, more = n + 1 := ⟨more - 1, by omega⟩
    rw [MainLoop] at hout ⊢
    split_ifs at hout ⊢
    · exact hout
    · cases hbody : MainLoopBody prec fuel (report (.prompt "ready >") s) with
      | none => simp [hbody] at hout
      | some next =>
        rw [hbody] at hout
        rw [MainLoopBody_of_le (Nat.le_of_succ_le_succ hle) hbody]
        exact ih (Nat.le_of_succ_le_succ hle) hout

end accelerators.kaleidoscope
