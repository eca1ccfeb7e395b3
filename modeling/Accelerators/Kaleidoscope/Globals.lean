import Accelerators.Kaleidoscope.Syntax

namespace accelerators.kaleidoscope

/-- The globals that `gettok` reads and writes. `σ` holds what the lexer keeps
    for itself: its lookahead character and the unread input. -/
structure Lexical (σ V : Type) where
  source : σ
  IdentifierStr : Str
  NumVal : V

/-- A lexer behind the global names of the source. -/
class TokenSource (σ : Type) (V : outParam Type) where
  gettok : Lexical σ V → Token × Lexical σ V

/-- All globals of the program. `BinopPrecedence` is not among them: a lookup
    of a missing key only inserts the default 0 that it returns, so the table
    is a parameter. -/
structure Globals (σ V : Type) extends Lexical σ V where
  CurTok : Token
  stderr : List (Report V)

variable {σ V : Type}

def getNextToken [TokenSource σ V] (s : Globals σ V) : Globals σ V :=
  let (tok, lexical) := TokenSource.gettok s.toLexical
  { s with toLexical := lexical, CurTok := tok }

/-- A `unique_ptr`, `none` for `nullptr`. -/
abbrev Ptr := Option

def report (r : Report V) (s : Globals σ V) : Globals σ V := { s with stderr := s.stderr ++ [r] }

/-- `LogError` and `LogErrorP`, which differ in the type of the null pointer. -/
def LogError {α : Type} (Str : String) (s : Globals σ V) : Ptr α × Globals σ V :=
  (none, report (.LogError Str) s)

@[simp] theorem getNextToken_stderr [TokenSource σ V] (s : Globals σ V) :
    (getNextToken s).stderr = s.stderr := rfl

@[simp] theorem report_stderr (r : Report V) (s : Globals σ V) :
    (report r s).stderr = s.stderr ++ [r] := rfl

@[simp] theorem report_CurTok (r : Report V) (s : Globals σ V) : (report r s).CurTok = s.CurTok := rfl

/-- The global that a token fills holds that token's own name or value. -/
def Lexeme.StoredIn : Lexeme V → Lexical σ V → Prop
  | .identifier name, g => g.IdentifierStr = name
  | .number value, g => g.NumVal = value
  | _, _ => True

/-- Successive calls of `gettok` deliver exactly the tokens `ts` with their
    names and values, and `tok_eof` for ever after. -/
inductive Drains [TokenSource σ V] : Lexical σ V → List (Lexeme V) → Prop where
  | nil {g rest : Lexical σ V} (hend : TokenSource.gettok g = (.tok_eof, rest))
      (hsticky : TokenSource.gettok rest = (.tok_eof, rest)) : Drains g []
  | cons {g rest : Lexical σ V} {x : Lexeme V} {xs : List (Lexeme V)}
      (hnext : TokenSource.gettok g = (x.token, rest)) (hstored : x.StoredIn rest)
      (htail : Drains rest xs) : Drains g (x :: xs)

/-- The kind of the first token of a stream that is followed by `after`. -/
def peek (ts : List (Lexeme V)) (after : Token) : Token :=
  match ts with
  | [] => after
  | x :: _ => x.token

@[simp] theorem peek_nil (after : Token) : peek ([] : List (Lexeme V)) after = after := rfl

@[simp] theorem peek_cons (x : Lexeme V) (xs : List (Lexeme V)) (after : Token) :
    peek (x :: xs) after = x.token := rfl

@[simp] theorem peek_append (xs ys : List (Lexeme V)) (after : Token) :
    peek (xs ++ ys) after = peek xs (peek ys after) := by
  cases xs <;> rfl

/-- The program stands in front of the tokens `ts`: `CurTok` is the first of
    them, its name or value is in the globals, and the lexer has the others. -/
def Globals.At [TokenSource σ V] (s : Globals σ V) : List (Lexeme V) → Prop
  | [] => s.CurTok = .tok_eof ∧ Drains s.toLexical []
  | x :: xs => s.CurTok = x.token ∧ x.StoredIn s.toLexical ∧ Drains s.toLexical xs

section
variable [TokenSource σ V]

theorem Globals.At.curTok {s : Globals σ V} {ts : List (Lexeme V)} (h : s.At ts) :
    s.CurTok = peek ts .tok_eof := by
  cases ts <;> exact h.1

theorem Globals.At.report {s : Globals σ V} {ts : List (Lexeme V)} (h : s.At ts) (r : Report V) :
    (report r s).At ts := by
  cases ts <;> exact h

theorem Drains.getNextToken {s : Globals σ V} {ts : List (Lexeme V)} (h : Drains s.toLexical ts) :
    (kaleidoscope.getNextToken s).At ts := by
  cases h with
  | nil hend hsticky =>
    simp only [kaleidoscope.getNextToken, hend, Globals.At, true_and]
    exact .nil hsticky hsticky
  | cons hnext hstored htail =>
    simp only [kaleidoscope.getNextToken, hnext, Globals.At, true_and]
    exact ⟨hstored, htail⟩

/-- One call of `getNextToken` consumes one token, and none at the end. -/
theorem Globals.At.getNextToken {s : Globals σ V} {ts : List (Lexeme V)} (h : s.At ts) :
    (kaleidoscope.getNextToken s).At ts.tail := by
  cases ts with
  | nil => exact h.2.getNextToken
  | cons x xs => exact h.2.2.getNextToken

theorem Globals.At.next {s : Globals σ V} {x : Lexeme V} {xs : List (Lexeme V)} (h : s.At (x :: xs)) :
    (kaleidoscope.getNextToken s).At xs :=
  h.getNextToken

omit [TokenSource σ V] in
theorem Lexeme.eq_of_storedIn {x y : Lexeme V} {g : Lexical σ V} (htoken : x.token = y.token)
    (hx : x.StoredIn g) (hy : y.StoredIn g) : x = y := by
  cases x <;> cases y <;> simp_all [Lexeme.token, Lexeme.StoredIn]

theorem Drains.unique {g : Lexical σ V} {xs ys : List (Lexeme V)} (hx : Drains g xs) (hy : Drains g ys) :
    xs = ys := by
  induction hx generalizing ys with
  | nil hend =>
    cases hy with
    | nil => rfl
    | @cons _ _ y _ hnext =>
      rw [hend] at hnext
      cases y <;> cases hnext
  | @cons g rest x xs hnext hstored htail ih =>
    cases hy with
    | nil hend =>
      rw [hend] at hnext
      cases x <;> cases hnext
    | cons hnext' hstored' htail' =>
      rw [hnext] at hnext'
      obtain ⟨htoken, rfl⟩ := Prod.mk.inj hnext'
      rw [Lexeme.eq_of_storedIn htoken hstored hstored', ih htail']

/-- The globals determine the tokens that are still to come. -/
theorem Globals.At.unique {s : Globals σ V} {xs ys : List (Lexeme V)} (hx : s.At xs) (hy : s.At ys) :
    xs = ys := by
  cases xs with
  | nil =>
    cases ys with
    | nil => rfl
    | cons y ys =>
      have htoken := hx.1.symm.trans hy.1
      cases y <;> cases htoken
  | cons x xs =>
    cases ys with
    | nil =>
      have htoken := hx.1.symm.trans hy.1
      cases x <;> cases htoken
    | cons y ys =>
      rw [Lexeme.eq_of_storedIn (hx.1.symm.trans hy.1) hx.2.1 hy.2.1, hx.2.2.unique hy.2.2]

end

/-- A token stream that is already in memory is a source of its own tokens. -/
instance : TokenSource (List (Lexeme V)) V where
  gettok g :=
    match g.source with
    | [] => (.tok_eof, g)
    | .identifier name :: xs => (.tok_identifier, { g with source := xs, IdentifierStr := name })
    | .number value :: xs => (.tok_number, { g with source := xs, NumVal := value })
    | x :: xs => (x.token, { g with source := xs })

theorem drains_list (ts : List (Lexeme V)) (g : Lexical (List (Lexeme V)) V) (h : g.source = ts) :
    Drains g ts := by
  induction ts generalizing g with
  | nil =>
    have hend : TokenSource.gettok g = (.tok_eof, g) := by simp [TokenSource.gettok, h]
    exact .nil hend hend
  | cons x xs ih =>
    obtain ⟨rest, hnext, hstored, hsource⟩ : ∃ rest : Lexical (List (Lexeme V)) V,
        TokenSource.gettok g = (x.token, rest) ∧ x.StoredIn rest ∧ rest.source = xs := by
      simp only [TokenSource.gettok, h]
      cases x with
      | identifier name => exact ⟨_, rfl, rfl, rfl⟩
      | number value => exact ⟨_, rfl, rfl, rfl⟩
      | _ => exact ⟨_, rfl, trivial, rfl⟩
    exact .cons hnext hstored (ih rest hsource)

/-- The program in front of a token stream held in memory. -/
def Globals.ofTokens (v : V) (ts : List (Lexeme V)) : Globals (List (Lexeme V)) V :=
  getNextToken { source := ts, IdentifierStr := [], NumVal := v, CurTok := .tok_eof, stderr := [] }

theorem Globals.at_ofTokens (v : V) (ts : List (Lexeme V)) : (Globals.ofTokens v ts).At ts :=
  (drains_list ts _ rfl).getNextToken

end accelerators.kaleidoscope
