import Accelerators.Kaleidoscope.Globals

namespace accelerators.kaleidoscope

variable {σ V : Type} [TokenSource σ V]

/-- `isascii` and the table lookup apply to bytes only: the named tokens are
    negative. -/
def GetTokPrecedence (BinopPrecedence : UInt8 → Int) (CurTok : Token) : Int :=
  match CurTok with
  | .char c =>
    if 128 ≤ c then -1
    else
      let TokPrec := BinopPrecedence c
      if TokPrec ≤ 0 then -1 else TokPrec
  | _ => -1

def ParseNumberExpr (s : Globals σ V) : Ptr (ExprAST V) × Globals σ V :=
  let Result := .NumberExprAST s.NumVal
  (some Result, getNextToken s)

/-- The outcome of a recursive parsing function: `none` when the fuel runs out,
    otherwise the returned pointer and the globals. -/
abbrev Outcome (σ V α : Type) := Option (Ptr α × Globals σ V)

mutual

def ParseParenExpr (BinopPrecedence : UInt8 → Int) :
    Nat → Globals σ V → Outcome σ V (ExprAST V)
  | 0, _ => none
  | fuel + 1, s =>
    match ParseExpression BinopPrecedence fuel (getNextToken s) with
    | none => none
    | some (none, s) => some (none, s)
    | some (some E, s) =>
      if s.CurTok ≠ .char (chr ')') then some (LogError "expected ')'" s)
      else some (some E, getNextToken s)

def ParseIdentifierExpr (BinopPrecedence : UInt8 → Int) :
    Nat → Globals σ V → Outcome σ V (ExprAST V)
  | 0, _ => none
  | fuel + 1, s =>
    let IdName := s.IdentifierStr
    let s := getNextToken s
    if s.CurTok ≠ .char (chr '(') then some (some (.VariableExprAST IdName), s)
    else
      let s := getNextToken s
      if s.CurTok ≠ .char (chr ')') then ParseArguments BinopPrecedence fuel IdName [] s
      else some (some (.CallExprAST IdName []), getNextToken s)

/-- The `while (1)` loop of `ParseIdentifierExpr`. Its `break` continues with
    the code after the loop. -/
def ParseArguments (BinopPrecedence : UInt8 → Int) :
    Nat → Str → List (ExprAST V) → Globals σ V → Outcome σ V (ExprAST V)
  | 0, _, _, _ => none
  | fuel + 1, IdName, Args, s =>
    match ParseExpression BinopPrecedence fuel s with
    | none => none
    | some (none, s) => some (none, s)
    | some (some Arg, s) =>
      let Args := Args ++ [Arg]
      if s.CurTok = .char (chr ')') then some (some (.CallExprAST IdName Args), getNextToken s)
      else if s.CurTok ≠ .char (chr ',') then some (LogError "Exp ')' " s)
      else ParseArguments BinopPrecedence fuel IdName Args (getNextToken s)

def ParsePrimary (BinopPrecedence : UInt8 → Int) :
    Nat → Globals σ V → Outcome σ V (ExprAST V)
  | 0, _ => none
  | fuel + 1, s =>
    match s.CurTok with
    | .tok_identifier => ParseIdentifierExpr BinopPrecedence fuel s
    | .tok_number => some (ParseNumberExpr s)
    | t =>
      if t = .char (chr '(') then ParseParenExpr BinopPrecedence fuel s
      else some (LogError "unk tok" s)

/-- One turn of the `while (1)` loop, then the next ones. The sum
    `TokPrec + 1` stays in range because a larger precedence follows it. -/
def ParseBinOpRHS (BinopPrecedence : UInt8 → Int) :
    Nat → Int → ExprAST V → Globals σ V → Outcome σ V (ExprAST V)
  | 0, _, _, _ => none
  | fuel + 1, ExprPrec, LHS, s =>
    let TokPrec := GetTokPrecedence BinopPrecedence s.CurTok
    if TokPrec < ExprPrec then some (some LHS, s)
    else
      let BinOp := s.CurTok
      match ParsePrimary BinopPrecedence fuel (getNextToken s) with
      | none => none
      | some (none, s) => some (none, s)
      | some (some RHS, s) =>
        let NextPrec := GetTokPrecedence BinopPrecedence s.CurTok
        if TokPrec < NextPrec then
          match ParseBinOpRHS BinopPrecedence fuel (TokPrec + 1) RHS s with
          | none => none
          | some (none, s) => some (none, s)
          | some (some RHS, s) =>
            ParseBinOpRHS BinopPrecedence fuel ExprPrec (.BinaryExprAST BinOp.toChar LHS RHS) s
        else
          ParseBinOpRHS BinopPrecedence fuel ExprPrec (.BinaryExprAST BinOp.toChar LHS RHS) s

def ParseExpression (BinopPrecedence : UInt8 → Int) :
    Nat → Globals σ V → Outcome σ V (ExprAST V)
  | 0, _ => none
  | fuel + 1, s =>
    match ParsePrimary BinopPrecedence fuel s with
    | none => none
    | some (none, s) => some (none, s)
    | some (some LHS, s) => ParseBinOpRHS BinopPrecedence fuel 0 LHS s

end

/-- The prototype's argument loop: it leaves the first token that is not an
    identifier in `CurTok`. -/
def ParseArgNames : Nat → List Str → Globals σ V → Option (List Str × Globals σ V)
  | 0, _, _ => none
  | fuel + 1, ArgNames, s =>
    let s := getNextToken s
    if s.CurTok = .tok_identifier then ParseArgNames fuel (ArgNames ++ [s.IdentifierStr]) s
    else some (ArgNames, s)

def ParsePrototype (fuel : Nat) (s : Globals σ V) : Outcome σ V PrototypeAST :=
  if s.CurTok ≠ .tok_identifier then some (LogError "Expected function name in prototype" s)
  else
    let FnName := s.IdentifierStr
    let s := getNextToken s
    if s.CurTok ≠ .char (chr '(') then some (LogError "Expected '(' in prototype" s)
    else
      match ParseArgNames fuel [] s with
      | none => none
      | some (ArgNames, s) =>
        if s.CurTok ≠ .char (chr ')') then some (LogError "Expected ')' in prototype" s)
        else some (some ⟨FnName, ArgNames⟩, getNextToken s)

def ParseDefinition (BinopPrecedence : UInt8 → Int) (fuel : Nat) (s : Globals σ V) :
    Outcome σ V (FunctionAST V) :=
  match ParsePrototype fuel (getNextToken s) with
  | none => none
  | some (none, s) => some (none, s)
  | some (some Proto, s) =>
    match ParseExpression BinopPrecedence fuel s with
    | none => none
    | some (none, s) => some (none, s)
    | some (some E, s) => some (some ⟨Proto, E⟩, s)

def ParseTopLevelExpr (BinopPrecedence : UInt8 → Int) (fuel : Nat) (s : Globals σ V) :
    Outcome σ V (FunctionAST V) :=
  match ParseExpression BinopPrecedence fuel s with
  | none => none
  | some (none, s) => some (none, s)
  | some (some E, s) => some (some ⟨⟨str "__anon_expr", []⟩, E⟩, s)

def ParseExtern (fuel : Nat) (s : Globals σ V) : Outcome σ V PrototypeAST :=
  ParsePrototype fuel (getNextToken s)

/-- A handler reports what was parsed, or skips a token for error recovery. -/
def Handle {α : Type} (parsed : α → Report V) : Outcome σ V α → Option (Globals σ V)
  | none => none
  | some (some item, s) => some (report (parsed item) s)
  | some (none, s) => some (getNextToken s)

def HandleDefinition (BinopPrecedence : UInt8 → Int) (fuel : Nat) (s : Globals σ V) :
    Option (Globals σ V) :=
  Handle .definition (ParseDefinition BinopPrecedence fuel s)

def HandleExtern (fuel : Nat) (s : Globals σ V) : Option (Globals σ V) :=
  Handle .externProto (ParseExtern fuel s)

def HandleTopLevelExpression (BinopPrecedence : UInt8 → Int) (fuel : Nat) (s : Globals σ V) :
    Option (Globals σ V) :=
  Handle .toplevel (ParseTopLevelExpr BinopPrecedence fuel s)

/-- One iteration of `MainLoop` whose `switch` does not return. -/
def MainLoopBody (BinopPrecedence : UInt8 → Int) (fuel : Nat) (s : Globals σ V) :
    Option (Globals σ V) :=
  match s.CurTok with
  | .tok_def => HandleDefinition BinopPrecedence fuel s
  | Token.tok_extern => HandleExtern fuel s
  | t =>
    if t = .char (chr ';') then some (getNextToken s)
    else HandleTopLevelExpression BinopPrecedence fuel s

def MainLoop (BinopPrecedence : UInt8 → Int) : Nat → Globals σ V → Option (Globals σ V)
  | 0, _ => none
  | fuel + 1, s =>
    let s := report (.prompt "ready >") s
    if s.CurTok = .tok_eof then some s
    else
      match MainLoopBody BinopPrecedence fuel s with
      | none => none
      | some s => MainLoop BinopPrecedence fuel s

/-- The operator table that `main` installs. -/
def standardPrecedence (c : UInt8) : Int :=
  if c = chr '<' then 10
  else if c = chr '+' then 20
  else if c = chr '-' then 20
  else if c = chr '*' then 40
  else 0

/-- `main` on globals with static initialisation. -/
def main (fuel : Nat) (s : Globals σ V) : Option (Globals σ V) :=
  MainLoop standardPrecedence fuel (getNextToken (report (.prompt "ready> ") s))

end accelerators.kaleidoscope
