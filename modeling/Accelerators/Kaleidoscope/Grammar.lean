import Accelerators.Kaleidoscope.Parser
import Accelerators.OperatorPrecedence.ReferenceTree

open operator_precedence

namespace accelerators.kaleidoscope

variable {V : Type}

/-- One operator of a chain with the primary to its right: the tokens of that
    primary and its tree. -/
structure Link (V : Type) where
  op : UInt8
  tokens : List (Lexeme V)
  tree : ExprAST V

def Link.operand (x : Link V) : UInt8 × ExprAST V := (x.op, x.tree)

/-- The tokens `op1 P1 ... opn Pn`. -/
def linkTokens (links : List (Link V)) : List (Lexeme V) :=
  links.flatMap fun x => .char x.op :: x.tokens

@[simp] theorem linkTokens_nil : linkTokens ([] : List (Link V)) = [] := rfl

@[simp] theorem linkTokens_cons (x : Link V) (xs : List (Link V)) :
    linkTokens (x :: xs) = .char x.op :: (x.tokens ++ linkTokens xs) := rfl

@[simp] theorem linkTokens_append (xs ys : List (Link V)) :
    linkTokens (xs ++ ys) = linkTokens xs ++ linkTokens ys := by
  simp [linkTokens]

/-- Token lists with a comma between neighbours. -/
def commaSeparated : List (List (Lexeme V)) → List (Lexeme V)
  | [] => []
  | [w] => w
  | w :: v :: rest => w ++ .char (chr ',') :: commaSeparated (v :: rest)

theorem commaSeparated_cons {w : List (Lexeme V)} {rest : List (List (Lexeme V))} (h : rest ≠ []) :
    commaSeparated (w :: rest) = w ++ .char (chr ',') :: commaSeparated rest := by
  cases rest with
  | nil => contradiction
  | cons v rest => rfl

/-- The reference tree of a chain, which the table alone determines. -/
def chainTree (prec : UInt8 → Int) (operand : ExprAST V) (links : List (Link V)) : ExprAST V :=
  refTree (fun op => GetTokPrecedence prec (.char op)) .BinaryExprAST operand (links.map Link.operand)

@[simp] theorem chainTree_nil (prec : UInt8 → Int) (operand : ExprAST V) :
    chainTree prec operand [] = operand :=
  refTree_nil operand

theorem chainTree_reduce {prec : UInt8 → Int} (operand : ExprAST V) (x : Link V) {tight rest : List (Link V)}
    (htight : ∀ y ∈ tight, GetTokPrecedence prec (.char x.op) < GetTokPrecedence prec (.char y.op))
    (hrest : ∀ y ∈ rest.head?, GetTokPrecedence prec (.char y.op) ≤ GetTokPrecedence prec (.char x.op)) :
    chainTree prec operand (x :: (tight ++ rest)) =
      chainTree prec (.BinaryExprAST x.op operand (chainTree prec x.tree tight)) rest := by
  have htight' : ∀ y ∈ tight.map Link.operand,
      GetTokPrecedence prec (.char x.op) < GetTokPrecedence prec (.char y.1) := by
    intro y hy
    obtain ⟨link, hlink, rfl⟩ := List.mem_map.mp hy
    exact htight link hlink
  have hrest' : ∀ y ∈ (rest.map Link.operand).head?,
      GetTokPrecedence prec (.char y.1) ≤ GetTokPrecedence prec (.char x.op) := by
    cases rest with
    | nil => simp
    | cons y ys => simpa [Link.operand] using hrest
  have h : refTree (fun op => GetTokPrecedence prec (.char op)) .BinaryExprAST operand
      ((x.op, x.tree) :: (tight.map Link.operand ++ rest.map Link.operand)) = _ :=
    refTree_reduce htight' _ hrest'
  simpa [chainTree, Link.operand] using h

mutual

/-- A primary: a number, an identifier, a call with any number of comma
    separated expressions, or an expression in parentheses. -/
inductive IsPrimary (prec : UInt8 → Int) : List (Lexeme V) → ExprAST V → Prop where
  | number (v : V) : IsPrimary prec [.number v] (.NumberExprAST v)
  | identifier (name : Str) : IsPrimary prec [.identifier name] (.VariableExprAST name)
  | call (name : Str) (args : List (List (Lexeme V) × ExprAST V))
      (hargs : ∀ arg ∈ args, IsExpr prec arg.1 arg.2) :
      IsPrimary prec
        (.identifier name :: .char (chr '(') ::
          (commaSeparated (args.map Prod.fst) ++ [.char (chr ')')]))
        (.CallExprAST name (args.map Prod.snd))
  | paren {w : List (Lexeme V)} {E : ExprAST V} (h : IsExpr prec w E) :
      IsPrimary prec (.char (chr '(') :: (w ++ [.char (chr ')')])) E

/-- An expression: a chain of primaries and operators of positive precedence,
    with its reference tree. -/
inductive IsExpr (prec : UInt8 → Int) : List (Lexeme V) → ExprAST V → Prop where
  | chain {w : List (Lexeme V)} {operand : ExprAST V} {links : List (Link V)}
      (hfirst : IsPrimary prec w operand)
      (hops : ∀ x ∈ links, 0 < GetTokPrecedence prec (.char x.op))
      (hoperands : ∀ x ∈ links, IsPrimary prec x.tokens x.tree) :
      IsExpr prec (w ++ linkTokens links) (chainTree prec operand links)

end

/-- The kinds of tokens that an expression can begin with. -/
def StartsPrimary (t : Token) : Prop := t = .tok_number ∨ t = .tok_identifier ∨ t = .char (chr '(')

theorem StartsPrimary.ne_close {t : Token} (h : StartsPrimary t) : t ≠ .char (chr ')') := by
  rcases h with rfl | rfl | rfl <;> decide

theorem IsPrimary.peek_starts {prec : UInt8 → Int} {w : List (Lexeme V)} {E : ExprAST V}
    (h : IsPrimary prec w E) (t : Token) : StartsPrimary (peek w t) := by
  cases h with
  | number v => exact .inl rfl
  | identifier name => exact .inr (.inl rfl)
  | call name args hargs => exact .inr (.inl rfl)
  | paren h => exact .inr (.inr rfl)

theorem IsExpr.peek_starts {prec : UInt8 → Int} {w : List (Lexeme V)} {E : ExprAST V}
    (h : IsExpr prec w E) (t : Token) : StartsPrimary (peek w t) := by
  cases h with
  | chain hfirst hops hoperands =>
    rw [peek_append]
    exact hfirst.peek_starts _

theorem exists_peek_commaSeparated (w : List (Lexeme V)) (rest : List (List (Lexeme V))) (t : Token) :
    ∃ t', peek (commaSeparated (w :: rest)) t = peek w t' := by
  cases rest with
  | nil => exact ⟨t, rfl⟩
  | cons v rest => exact ⟨_, peek_append _ _ _⟩

/-- The last token is an identifier. -/
def EndsInIdentifier (w : List (Lexeme V)) : Prop := ∃ name, w.getLast? = some (.identifier name)

/-- What maximal munch asks of the token after an expression `w`: it is not an
    operator, and no parenthesis that would make a call of a last identifier. -/
def MunchedBefore (prec : UInt8 → Int) (w : List (Lexeme V)) (t : Token) : Prop :=
  GetTokPrecedence prec t < 0 ∧ (EndsInIdentifier w → t ≠ .char (chr '('))

/-- Tables whose operators are ASCII characters other than the parentheses and
    the comma. -/
def OperatorTable (prec : UInt8 → Int) : Prop :=
  ∀ c, 0 < prec c → c < 128 ∧ c ≠ chr '(' ∧ c ≠ chr ')' ∧ c ≠ chr ','

theorem operatorTable_standard : OperatorTable standardPrecedence := by
  intro c hc
  unfold standardPrecedence at hc
  split_ifs at hc with h1 h2 h3 h4
  all_goals first | (subst c; decide) | simp at hc

theorem not_endsInIdentifier_nil : ¬ EndsInIdentifier ([] : List (Lexeme V)) := by
  simp [EndsInIdentifier]

theorem EndsInIdentifier.append {v : List (Lexeme V)} (h : EndsInIdentifier v) (u : List (Lexeme V)) :
    EndsInIdentifier (u ++ v) := by
  obtain ⟨name, hlast⟩ := h
  exact ⟨name, by simp [hlast]⟩

theorem EndsInIdentifier.of_append {u v : List (Lexeme V)} (h : EndsInIdentifier (u ++ v))
    (hne : v ≠ []) : EndsInIdentifier v := by
  obtain ⟨name, hlast⟩ := h
  refine ⟨name, ?_⟩
  cases hv : v.getLast? with
  | none => exact absurd (List.getLast?_eq_none_iff.mp hv) hne
  | some x => simpa [hv] using hlast

theorem not_endsInIdentifier_char (u : List (Lexeme V)) (c : UInt8) :
    ¬ EndsInIdentifier (u ++ [.char c]) := by
  simp [EndsInIdentifier]

end accelerators.kaleidoscope
