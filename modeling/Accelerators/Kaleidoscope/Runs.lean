import Accelerators.Kaleidoscope.Parser

namespace accelerators.kaleidoscope

variable {σ V : Type}

/-- The point of the expression parser at which a run starts, with the local
    variables it has there. -/
inductive Entry (V : Type) where
  | primary
  | arguments (IdName : Str) (Args : List (ExprAST V))
  | binOpRHS (ExprPrec : Int) (LHS : ExprAST V)
  | expression

/-- `Runs prec entry w t result`: from `entry` the expression parser consumes
    the tokens `w` and stops in front of a token of kind `t`, with a tree or
    with the one message it has logged. Globals and fuel do not occur. -/
inductive Runs (prec : UInt8 → Int) :
    Entry V → List (Lexeme V) → Token → Except String (ExprAST V) → Prop where
  | unknown {t : Token} (hid : t ≠ .tok_identifier) (hnum : t ≠ .tok_number)
      (hopen : t ≠ .char (chr '(')) : Runs prec .primary [] t (.error "unk tok")
  | number (v : V) (t : Token) : Runs prec .primary [.number v] t (.ok (.NumberExprAST v))
  | var (name : Str) {t : Token} (hopen : t ≠ .char (chr '(')) :
      Runs prec .primary [.identifier name] t (.ok (.VariableExprAST name))
  | callEmpty (name : Str) (t : Token) :
      Runs prec .primary [.identifier name, .char (chr '('), .char (chr ')')] t
        (.ok (.CallExprAST name []))
  | call (name : Str) {w : List (Lexeme V)} {t : Token} {result : Except String (ExprAST V)}
      (hclose : peek w t ≠ .char (chr ')')) (hargs : Runs prec (.arguments name []) w t result) :
      Runs prec .primary (.identifier name :: .char (chr '(') :: w) t result
  | paren {w : List (Lexeme V)} {E : ExprAST V} (t : Token)
      (hinner : Runs prec .expression w (.char (chr ')')) (.ok E)) :
      Runs prec .primary (.char (chr '(') :: (w ++ [.char (chr ')')])) t (.ok E)
  | parenInner {w : List (Lexeme V)} {t : Token} {msg : String}
      (hinner : Runs prec .expression w t (.error msg)) :
      Runs prec .primary (.char (chr '(') :: w) t (.error msg)
  | parenClose {w : List (Lexeme V)} {t : Token} {E : ExprAST V}
      (hinner : Runs prec .expression w t (.ok E)) (hclose : t ≠ .char (chr ')')) :
      Runs prec .primary (.char (chr '(') :: w) t (.error "expected ')'")
  | argInner {name : Str} {Args : List (ExprAST V)} {w : List (Lexeme V)} {t : Token} {msg : String}
      (harg : Runs prec .expression w t (.error msg)) :
      Runs prec (.arguments name Args) w t (.error msg)
  | argLast {name : Str} {Args : List (ExprAST V)} {w : List (Lexeme V)} {Arg : ExprAST V} (t : Token)
      (harg : Runs prec .expression w (.char (chr ')')) (.ok Arg)) :
      Runs prec (.arguments name Args) (w ++ [.char (chr ')')]) t
        (.ok (.CallExprAST name (Args ++ [Arg])))
  | argSeparator {name : Str} {Args : List (ExprAST V)} {w : List (Lexeme V)} {t : Token}
      {Arg : ExprAST V} (harg : Runs prec .expression w t (.ok Arg))
      (hclose : t ≠ .char (chr ')')) (hcomma : t ≠ .char (chr ',')) :
      Runs prec (.arguments name Args) w t (.error "Exp ')' ")
  | argNext {name : Str} {Args : List (ExprAST V)} {w w' : List (Lexeme V)} {t : Token}
      {Arg : ExprAST V} {result : Except String (ExprAST V)}
      (harg : Runs prec .expression w (.char (chr ',')) (.ok Arg))
      (hrest : Runs prec (.arguments name (Args ++ [Arg])) w' t result) :
      Runs prec (.arguments name Args) (w ++ .char (chr ',') :: w') t result
  | stop {ExprPrec : Int} {LHS : ExprAST V} {t : Token} (hprec : GetTokPrecedence prec t < ExprPrec) :
      Runs prec (.binOpRHS ExprPrec LHS) [] t (.ok LHS)
  | operand {ExprPrec : Int} {LHS : ExprAST V} {op : UInt8} {w : List (Lexeme V)} {t : Token}
      {msg : String} (hprec : ExprPrec ≤ GetTokPrecedence prec (.char op))
      (hprimary : Runs prec .primary w t (.error msg)) :
      Runs prec (.binOpRHS ExprPrec LHS) (.char op :: w) t (.error msg)
  | reduce {ExprPrec : Int} {LHS RHS : ExprAST V} {op : UInt8} {w w' : List (Lexeme V)} {t : Token}
      {result : Except String (ExprAST V)} (hprec : ExprPrec ≤ GetTokPrecedence prec (.char op))
      (hprimary : Runs prec .primary w (peek w' t) (.ok RHS))
      (hnext : GetTokPrecedence prec (peek w' t) ≤ GetTokPrecedence prec (.char op))
      (hrest : Runs prec (.binOpRHS ExprPrec (.BinaryExprAST op LHS RHS)) w' t result) :
      Runs prec (.binOpRHS ExprPrec LHS) (.char op :: (w ++ w')) t result
  | nestedError {ExprPrec : Int} {LHS RHS : ExprAST V} {op : UInt8} {w w' : List (Lexeme V)}
      {t : Token} {msg : String} (hprec : ExprPrec ≤ GetTokPrecedence prec (.char op))
      (hprimary : Runs prec .primary w (peek w' t) (.ok RHS))
      (hnext : GetTokPrecedence prec (.char op) < GetTokPrecedence prec (peek w' t))
      (hnested : Runs prec (.binOpRHS (GetTokPrecedence prec (.char op) + 1) RHS) w' t (.error msg)) :
      Runs prec (.binOpRHS ExprPrec LHS) (.char op :: (w ++ w')) t (.error msg)
  | nested {ExprPrec : Int} {LHS RHS RHS' : ExprAST V} {op : UInt8} {w w' w'' : List (Lexeme V)}
      {t : Token} {result : Except String (ExprAST V)}
      (hprec : ExprPrec ≤ GetTokPrecedence prec (.char op))
      (hprimary : Runs prec .primary w (peek w' (peek w'' t)) (.ok RHS))
      (hnext : GetTokPrecedence prec (.char op) < GetTokPrecedence prec (peek w' (peek w'' t)))
      (hnested : Runs prec (.binOpRHS (GetTokPrecedence prec (.char op) + 1) RHS) w' (peek w'' t)
        (.ok RHS'))
      (hrest : Runs prec (.binOpRHS ExprPrec (.BinaryExprAST op LHS RHS')) w'' t result) :
      Runs prec (.binOpRHS ExprPrec LHS) (.char op :: (w ++ (w' ++ w''))) t result
  | exprInner {w : List (Lexeme V)} {t : Token} {msg : String}
      (hprimary : Runs prec .primary w t (.error msg)) : Runs prec .expression w t (.error msg)
  | expr {w w' : List (Lexeme V)} {t : Token} {LHS : ExprAST V} {result : Except String (ExprAST V)}
      (hprimary : Runs prec .primary w (peek w' t) (.ok LHS))
      (hrest : Runs prec (.binOpRHS 0 LHS) w' t result) :
      Runs prec .expression (w ++ w') t result

section
variable [TokenSource σ V]

/-- The function of the parser that belongs to an entry point. -/
def Entry.function (prec : UInt8 → Int) (fuel : Nat) (s : Globals σ V) :
    Entry V → Outcome σ V (ExprAST V)
  | .primary => ParsePrimary prec fuel s
  | .arguments IdName Args => ParseArguments prec fuel IdName Args s
  | .binOpRHS ExprPrec LHS => ParseBinOpRHS prec fuel ExprPrec LHS s
  | .expression => ParseExpression prec fuel s

/-- A parsing function returns with the given result in front of `rest`. The
    error stream gains one message when the result is an error, otherwise
    nothing. -/
def Returns {α : Type} (s : Globals σ V) (rest : List (Lexeme V)) (result : Except String α)
    (out : Outcome σ V α) : Prop :=
  match result with
  | .ok a => ∃ s', out = some (some a, s') ∧ s'.At rest ∧ s'.stderr = s.stderr
  | .error msg => ∃ s', out = some (none, s') ∧ s'.At rest ∧ s'.stderr = s.stderr ++ [.LogError msg]

theorem Returns.of_stderr {α : Type} {s s' : Globals σ V} {rest : List (Lexeme V)}
    {result : Except String α} {out : Outcome σ V α} (h : Returns s' rest result out)
    (herr : s'.stderr = s.stderr) : Returns s rest result out := by
  cases result <;> simpa only [Returns, herr] using h

theorem returns_logError {α : Type} {s s' : Globals σ V} {rest : List (Lexeme V)} (msg : String)
    (hat : s'.At rest) (herr : s'.stderr = s.stderr) :
    Returns s rest (.error msg : Except String α) (some (LogError msg s')) :=
  ⟨report (.LogError msg) s', rfl, hat.report _, by simp [herr]⟩

/-- The fuel an entry point needs besides three units for each token consumed. -/
def Entry.cost : Entry V → Nat
  | .primary => 1
  | .arguments _ _ => 3
  | .binOpRHS _ _ => 1
  | .expression => 2

end

end accelerators.kaleidoscope
