import Accelerators.Kaleidoscope.Lexer.Render
import Accelerators.Kaleidoscope.TopLevel.Items

open operator_precedence

namespace accelerators.kaleidoscope

variable {V : Type} {prec : UInt8 → Int} {low low' : Int} {w w' : List (Lexeme V)} {E L R : ExprAST V}

def inParens (w : List (Lexeme V)) : List (Lexeme V) := .char (chr '(') :: (w ++ [.char (chr ')')])

mutual

/-- The tokens of an expression that stands where operators of precedence `low`
    and more may stand: it is put in parentheses only if its own is lower. -/
def printExpr (prec : UInt8 → Int) (low : Int) : ExprAST V → List (Lexeme V)
  | .NumberExprAST Val => [.number Val]
  | .VariableExprAST Name => [.identifier Name]
  | .BinaryExprAST Op LHS RHS =>
    let p := GetTokPrecedence prec (.char Op)
    let w := printExpr prec p LHS ++ .char Op :: printExpr prec (p + 1) RHS
    if p < low then inParens w else w
  | .CallExprAST Callee Args => .identifier Callee :: inParens (commaSeparated (printExprs prec Args))

def printExprs (prec : UInt8 → Int) : List (ExprAST V) → List (List (Lexeme V))
  | [] => []
  | Arg :: Args => printExpr prec 0 Arg :: printExprs prec Args

end

theorem printExprs_eq_map (prec : UInt8 → Int) (Args : List (ExprAST V)) :
    printExprs prec Args = Args.map (printExpr prec 0) := by
  induction Args with
  | nil => rfl
  | cons Arg Args ih => rw [printExprs, ih, List.map_cons]

/-- Expressions that can be written: the operators are in the table, and names
    and number texts are such. -/
inductive ExprAST.Writable (prec : UInt8 → Int) : ExprAST Str → Prop where
  | number {Val : Str} (hval : kaleidoscope.Writable (.number Val)) : Writable prec (.NumberExprAST Val)
  | identifier {Name : Str} (hname : kaleidoscope.Writable (.identifier Name)) : Writable prec (.VariableExprAST Name)
  | binary {Op : UInt8} {LHS RHS : ExprAST Str} (hop : 0 < GetTokPrecedence prec (.char Op))
      (hlhs : Writable prec LHS) (hrhs : Writable prec RHS) : Writable prec (.BinaryExprAST Op LHS RHS)
  | call {Callee : Str} {Args : List (ExprAST Str)} (hcallee : kaleidoscope.Writable (.identifier Callee))
      (hargs : ∀ Arg ∈ Args, Writable prec Arg) : Writable prec (.CallExprAST Callee Args)

mutual

/-- The expression with its number texts converted. -/
def ExprAST.convert (strtod : Str → V) : ExprAST Str → ExprAST V
  | .NumberExprAST Val => .NumberExprAST (strtod Val)
  | .VariableExprAST Name => .VariableExprAST Name
  | .BinaryExprAST Op LHS RHS => .BinaryExprAST Op (LHS.convert strtod) (RHS.convert strtod)
  | .CallExprAST Callee Args => .CallExprAST Callee (convertExprs strtod Args)

def convertExprs (strtod : Str → V) : List (ExprAST Str) → List (ExprAST V)
  | [] => []
  | Arg :: Args => Arg.convert strtod :: convertExprs strtod Args

end

theorem convertExprs_eq_map (strtod : Str → V) (Args : List (ExprAST Str)) :
    convertExprs strtod Args = Args.map (ExprAST.convert strtod) := by
  induction Args with
  | nil => rfl
  | cons Arg Args ih => rw [convertExprs, ih, List.map_cons]

/-- A chain of primaries with operators of precedence `low` and more. -/
def Chained (prec : UInt8 → Int) (low : Int) (w : List (Lexeme V)) (E : ExprAST V) : Prop :=
  ∃ first operand, ∃ links : List (Link V), w = first ++ linkTokens links ∧ chainTree prec operand links = E ∧
    IsPrimary prec first operand ∧
    ∀ x ∈ links, (0 < GetTokPrecedence prec (.char x.op) ∧ low ≤ GetTokPrecedence prec (.char x.op)) ∧
      IsPrimary prec x.tokens x.tree

theorem IsPrimary.chained (h : IsPrimary prec w E) : Chained prec low w E :=
  ⟨w, E, [], by simp, chainTree_nil prec E, h, by simp⟩

theorem Chained.isExpr (h : Chained prec low w E) : IsExpr prec w E := by
  obtain ⟨first, operand, links, rfl, rfl, hfirst, hlinks⟩ := h
  exact .chain hfirst (fun x hx => (hlinks x hx).1.1) fun x hx => (hlinks x hx).2

theorem Chained.mono (h : Chained prec low w E) (hle : low' ≤ low) : Chained prec low' w E := by
  obtain ⟨first, operand, links, hw, hE, hfirst, hlinks⟩ := h
  exact ⟨first, operand, links, hw, hE, hfirst, fun x hx =>
    ⟨⟨(hlinks x hx).1.1, hle.trans (hlinks x hx).1.2⟩, (hlinks x hx).2⟩⟩

/-- The operator between two chains is the last of those that bind least. -/
theorem Chained.binary {Op : UInt8} (hop : 0 < GetTokPrecedence prec (.char Op))
    (hl : Chained prec (GetTokPrecedence prec (.char Op)) w L)
    (hr : Chained prec (GetTokPrecedence prec (.char Op) + 1) w' R) :
    Chained prec (GetTokPrecedence prec (.char Op)) (w ++ .char Op :: w') (.BinaryExprAST Op L R) := by
  obtain ⟨first, operand, links, rfl, rfl, hfirst, hlinks⟩ := hl
  obtain ⟨first', operand', links', rfl, rfl, hfirst', hlinks'⟩ := hr
  refine ⟨first, operand, links ++ ⟨Op, first', operand'⟩ :: links', by simp, ?_, hfirst, ?_⟩
  · rw [chainTree, List.map_append, List.map_cons]
    refine refTree_append ?_ ?_
    · intro y hy
      obtain ⟨x, hx, rfl⟩ := List.mem_map.mp hy
      exact (hlinks x hx).1.2
    · intro y hy
      obtain ⟨x, hx, rfl⟩ := List.mem_map.mp hy
      exact Int.lt_of_add_one_le (hlinks' x hx).1.2
  · intro x hx
    obtain hx | hx := List.mem_append.mp hx
    · exact hlinks x hx
    · obtain rfl | hx := List.mem_cons.mp hx
      · exact ⟨⟨hop, Int.le_refl _⟩, hfirst'⟩
      · exact ⟨⟨(hlinks' x hx).1.1, Int.le_trans (by omega) (hlinks' x hx).1.2⟩, (hlinks' x hx).2⟩

theorem map_commaSeparated (f : Lexeme Str → Lexeme V) (hcomma : f (.char (chr ',')) = .char (chr ','))
    (ws : List (List (Lexeme Str))) : (commaSeparated ws).map f = commaSeparated (ws.map (List.map f)) := by
  induction ws with
  | nil => rfl
  | cons w rest ih =>
    cases rest with
    | nil => rfl
    | cons v rest => rw [commaSeparated, List.map_append, List.map_cons, hcomma, ih]; rfl

/-- What is printed is a chain with the tree that it was printed from. -/
theorem ExprAST.Writable.chained {E : ExprAST Str} (h : E.Writable prec) (strtod : Str → V) (low : Int) :
    Chained prec low ((printExpr prec low E).map (Lexeme.convert strtod)) (E.convert strtod) := by
  induction h generalizing low with
  | number hval => exact (IsPrimary.number _).chained
  | identifier hname => exact (IsPrimary.identifier _).chained
  | @binary Op LHS RHS hop hlhs hrhs ihl ihr =>
    have hchain := Chained.binary hop (ihl (GetTokPrecedence prec (.char Op)))
      (ihr (GetTokPrecedence prec (.char Op) + 1))
    rw [printExpr, ExprAST.convert]
    split_ifs with hlow
    · have hparen : Chained prec low _ _ := (IsPrimary.paren hchain.isExpr).chained
      simpa [inParens, Lexeme.convert] using hparen
    · simpa [Lexeme.convert] using hchain.mono (Int.not_lt.mp hlow)
  | @call Callee Args hcallee hargs ih =>
    have hcall : Chained prec low _ _ := (IsPrimary.call Callee
      (Args.map fun Arg => ((printExpr prec 0 Arg).map (Lexeme.convert strtod), Arg.convert strtod)) (by
        intro arg harg
        obtain ⟨Arg, hArg, rfl⟩ := List.mem_map.mp harg
        exact (ih Arg hArg 0).isExpr)).chained
    have hcommas := map_commaSeparated (Lexeme.convert strtod) rfl (Args.map (printExpr prec 0))
    rw [printExpr, ExprAST.convert, printExprs_eq_map, convertExprs_eq_map]
    simpa [inParens, Lexeme.convert, hcommas, Function.comp_def] using hcall

instance (c : UInt8) : Decidable (Writable (.char c)) := inferInstanceAs (Decidable (_ ∧ _ ∧ _ ∧ _))

theorem mem_inParens {x : Lexeme V} :
    x ∈ inParens w ↔ x = .char (chr '(') ∨ x ∈ w ∨ x = .char (chr ')') := by
  simp [inParens]

/-- All tokens of an expression that can be written can be written. -/
theorem ExprAST.Writable.tokens (hops : ∀ c, 0 < GetTokPrecedence prec (.char c) → kaleidoscope.Writable (.char c))
    {E : ExprAST Str} (h : E.Writable prec) (low : Int) : ∀ x ∈ printExpr prec low E, kaleidoscope.Writable x := by
  have hopen : kaleidoscope.Writable (.char (chr '(')) := by decide
  have hclose : kaleidoscope.Writable (.char (chr ')')) := by decide
  have hcomma : kaleidoscope.Writable (.char (chr ',')) := by decide
  induction h generalizing low with
  | number hval => simpa [printExpr] using hval
  | identifier hname => simpa [printExpr] using hname
  | @binary Op LHS RHS hop hlhs hrhs ihl ihr =>
    have hw : ∀ x ∈ printExpr prec (GetTokPrecedence prec (.char Op)) LHS ++
        .char Op :: printExpr prec (GetTokPrecedence prec (.char Op) + 1) RHS, kaleidoscope.Writable x := by
      intro x hx
      rw [List.mem_append, List.mem_cons] at hx
      obtain hx | rfl | hx := hx
      · exact ihl _ x hx
      · exact hops Op hop
      · exact ihr _ x hx
    intro x hx
    rw [printExpr] at hx
    split_ifs at hx
    · obtain rfl | hx | rfl := mem_inParens.mp hx
      · exact hopen
      · exact hw x hx
      · exact hclose
    · exact hw x hx
  | @call Callee Args hcallee hargs ih =>
    intro x hx
    rw [printExpr, List.mem_cons, mem_inParens, printExprs_eq_map] at hx
    obtain rfl | rfl | hx | rfl := hx
    · exact hcallee
    · exact hopen
    · obtain rfl | ⟨w, hw, hx⟩ := mem_commaSeparated hx
      · exact hcomma
      · obtain ⟨Arg, hArg, rfl⟩ := List.mem_map.mp hw
        exact ih Arg hArg 0 x hx
    · exact hclose

end accelerators.kaleidoscope
