import Mathlib.Data.UInt

namespace accelerators.kaleidoscope

/-- The bytes of a `std::string`. -/
abbrev Str := List UInt8

/-- A character constant of the source, as a byte. -/
def chr (c : Char) : UInt8 := c.toUInt8

/-- A string constant of the source, as bytes. -/
def str (s : String) : Str := s.toList.map chr

/-- What `gettok` returns: one of the named tokens, which are the negative
    numbers of the source's enumeration, or the byte itself. -/
inductive Token where
  | tok_eof
  | tok_def
  | tok_extern
  | tok_identifier
  | tok_number
  | char (c : UInt8)
  deriving DecidableEq, Repr

/-- The `int` that stands for a token. -/
def Token.toInt : Token → Int
  | .tok_eof => -1
  | .tok_def => -2
  | Token.tok_extern => -3
  | .tok_identifier => -4
  | .tok_number => -5
  | .char c => c.toNat

/-- The conversion of a token's `int` to `char`, which keeps the low byte. -/
def Token.toChar : Token → UInt8
  | .char c => c
  | t => UInt8.ofInt t.toInt

/-- A token together with the global that `gettok` fills for it. `V` is the
    type of `NumVal`. -/
inductive Lexeme (V : Type) where
  | defKeyword
  | externKeyword
  | identifier (name : Str)
  | number (value : V)
  | char (c : UInt8)
  deriving DecidableEq, Repr

def Lexeme.token {V : Type} : Lexeme V → Token
  | .defKeyword => .tok_def
  | .externKeyword => Token.tok_extern
  | .identifier _ => .tok_identifier
  | .number _ => .tok_number
  | .char c => .char c

inductive ExprAST (V : Type) where
  | NumberExprAST (Val : V)
  | VariableExprAST (Name : Str)
  | BinaryExprAST (Op : UInt8) (LHS RHS : ExprAST V)
  | CallExprAST (Callee : Str) (Args : List (ExprAST V))
  deriving Repr

structure PrototypeAST where
  Name : Str
  Args : List Str
  deriving DecidableEq, Repr

structure FunctionAST (V : Type) where
  Proto : PrototypeAST
  Body : ExprAST V
  deriving Repr

/-- One message on `stderr`. The messages about parsed items also carry the
    item, which the source parses and drops. -/
inductive Report (V : Type) where
  | prompt (text : String)
  | LogError (Str : String)
  | definition (f : FunctionAST V)
  | externProto (p : PrototypeAST)
  | toplevel (f : FunctionAST V)
  deriving Repr

/-- The text that is printed. -/
def Report.text {V : Type} : Report V → String
  | .prompt text => text
  | .LogError Str => "LogError: " ++ Str ++ "\n"
  | .definition _ => "Parsed a function definition.\n"
  | .externProto _ => "Parsed an extern\n"
  | .toplevel _ => "Parsed a top-level expr\n"

def Report.isPrompt {V : Type} : Report V → Bool
  | .prompt _ => true
  | _ => false

end accelerators.kaleidoscope
