import Accelerators.Kaleidoscope.Runs

namespace accelerators.kaleidoscope

variable {σ V : Type} [TokenSource σ V] {prec : UInt8 → Int}

private theorem exists_succ (n fuel : Nat) (h : n + 1 ≤ fuel) : ∃ m, fuel = m + 1 :=
  ⟨fuel - 1, by omega⟩

theorem ParseIdentifierExpr_variable {s : Globals σ V} {name : Str} {rest : List (Lexeme V)} (fuel : Nat)
    (hat : s.At (.identifier name :: rest)) (hopen : peek rest .tok_eof ≠ .char (chr '(')) :
    ParseIdentifierExpr prec (fuel + 1) s = some (some (.VariableExprAST name), getNextToken s) := by
  have hname : s.IdentifierStr = name := hat.2.1
  have hnext := hat.next.curTok
  simp [ParseIdentifierExpr, hnext, hopen, hname]

theorem ParseIdentifierExpr_call {s : Globals σ V} {name : Str} {rest : List (Lexeme V)} (fuel : Nat)
    (hat : s.At (.identifier name :: .char (chr '(') :: rest)) :
    ParseIdentifierExpr prec (fuel + 1) s =
      if peek rest .tok_eof ≠ .char (chr ')') then
        ParseArguments prec fuel name [] (getNextToken (getNextToken s))
      else some (some (.CallExprAST name []), getNextToken (getNextToken (getNextToken s))) := by
  have hname : s.IdentifierStr = name := hat.2.1
  have hnext := hat.next.curTok
  have hafter := hat.next.next.curTok
  simp [ParseIdentifierExpr, hnext, hafter, hname, Lexeme.token]

/-- Started at `entry` in front of the tokens `w`, the parser returns `result`
    after them when a token of kind `t` follows. Three units of fuel for each
    token are enough, because no token is entered by more than three nested calls. -/
def Performs (σ : Type) [TokenSource σ V] (prec : UInt8 → Int) (entry : Entry V) (w : List (Lexeme V))
    (t : Token) (result : Except String (ExprAST V)) : Prop :=
  ∀ (s : Globals σ V) (rest : List (Lexeme V)) (fuel : Nat), s.At (w ++ rest) →
    peek rest .tok_eof = t → 3 * w.length + entry.cost ≤ fuel →
    Returns s rest result (entry.function prec fuel s)

theorem ParsePrimary_unknown {t : Token} (hid : t ≠ .tok_identifier) (hnum : t ≠ .tok_number)
    (hopen : t ≠ .char (chr '(')) : Performs σ prec (.primary : Entry V) [] t (.error "unk tok") := by
  intro s rest fuel hat ht hfuel
  obtain ⟨fuel, rfl⟩ := exists_succ _ _ hfuel
  have hcur : s.CurTok = _ := hat.curTok.trans ht
  have hfun : ParsePrimary prec (fuel + 1) s = some (LogError "unk tok" s) := by
    rw [ParsePrimary, hcur]
    split <;> simp_all
  rw [Entry.function, hfun]
  exact returns_logError _ hat rfl

theorem ParsePrimary_number (v : V) (t : Token) :
    Performs σ prec .primary [.number v] t (.ok (.NumberExprAST v)) := by
  intro s rest fuel hat ht hfuel
  obtain ⟨fuel, rfl⟩ := exists_succ _ _ hfuel
  have hcur : s.CurTok = .tok_number := hat.1
  have hval : s.NumVal = v := hat.2.1
  exact ⟨getNextToken s, by simp [Entry.function, ParsePrimary, hcur, ParseNumberExpr, hval], hat.next, rfl⟩

theorem ParsePrimary_var (name : Str) {t : Token} (hopen : t ≠ .char (chr '(')) :
    Performs σ prec (.primary : Entry V) [.identifier name] t (.ok (.VariableExprAST name)) := by
  intro s rest fuel hat ht hfuel
  obtain ⟨fuel, rfl⟩ := exists_succ _ _ hfuel
  obtain ⟨fuel, rfl⟩ := exists_succ 0 fuel (by simp at hfuel; omega)
  have hcur : s.CurTok = .tok_identifier := hat.1
  refine ⟨getNextToken s, ?_, hat.next, rfl⟩
  simp only [Entry.function, ParsePrimary, hcur]
  exact ParseIdentifierExpr_variable fuel hat (ht ▸ hopen)

theorem ParsePrimary_callEmpty (name : Str) (t : Token) : Performs σ prec (.primary : Entry V)
    [.identifier name, .char (chr '('), .char (chr ')')] t (.ok (.CallExprAST name [])) := by
  intro s rest fuel hat ht hfuel
  obtain ⟨fuel, rfl⟩ := exists_succ _ _ hfuel
  obtain ⟨fuel, rfl⟩ := exists_succ 0 fuel (by simp at hfuel; omega)
  have hcur : s.CurTok = .tok_identifier := hat.1
  refine ⟨getNextToken (getNextToken (getNextToken s)), ?_, hat.next.next.next, rfl⟩
  simp only [Entry.function, ParsePrimary, hcur]
  rw [ParseIdentifierExpr_call fuel hat, if_neg (by simp [Lexeme.token])]

theorem ParsePrimary_call {name : Str} {w : List (Lexeme V)} {t : Token}
    {result : Except String (ExprAST V)} (hclose : peek w t ≠ .char (chr ')'))
    (hargs : Performs σ prec (.arguments name []) w t result) :
    Performs σ prec .primary (.identifier name :: .char (chr '(') :: w) t result := by
  intro s rest fuel hat ht hfuel
  simp only [List.length_cons, Entry.cost] at hfuel
  obtain ⟨fuel, rfl⟩ := exists_succ _ _ hfuel
  obtain ⟨fuel, rfl⟩ := exists_succ (3 * w.length + 3) fuel (by omega)
  have hcur : s.CurTok = .tok_identifier := hat.1
  have hret := hargs (getNextToken (getNextToken s)) rest fuel hat.next.next ht
    (by simp only [Entry.cost]; omega)
  simp only [Entry.function, ParsePrimary, hcur]
  rw [ParseIdentifierExpr_call fuel hat, if_pos (by simpa [ht] using hclose)]
  exact hret.of_stderr rfl

section paren
variable {w : List (Lexeme V)} {E : ExprAST V}

/-- Behind an opening parenthesis the expression is parsed with two units less. -/
theorem Performs.inParens {t : Token} {result : Except String (ExprAST V)}
    (hinner : Performs σ prec .expression w t result) {s : Globals σ V} {rest : List (Lexeme V)}
    (fuel : Nat) (hat : s.At (.char (chr '(') :: (w ++ rest))) (ht : peek rest .tok_eof = t)
    (hfuel : 3 * w.length + 4 ≤ fuel) :
    ∃ n, fuel = n + 2 ∧ s.CurTok = .char (chr '(') ∧
      Returns (getNextToken s) rest result (ParseExpression prec n (getNextToken s)) := by
  obtain ⟨n, rfl⟩ : ∃ n, fuel = n + 2 := ⟨fuel - 2, by omega⟩
  exact ⟨n, rfl, hat.1, hinner (getNextToken s) rest n hat.next ht (by simp only [Entry.cost]; omega)⟩

theorem ParsePrimary_paren (t : Token) (hinner : Performs σ prec .expression w (.char (chr ')')) (.ok E)) :
    Performs σ prec .primary (.char (chr '(') :: (w ++ [.char (chr ')')])) t (.ok E) := by
  intro s rest fuel hat ht hfuel
  simp only [List.length_cons, List.length_append, List.length_nil, Entry.cost] at hfuel
  have hin : s.At (.char (chr '(') :: (w ++ .char (chr ')') :: rest)) := by simpa using hat
  obtain ⟨n, rfl, hcur, s', hout, hat', herr⟩ := hinner.inParens fuel hin rfl (by omega)
  have hclose : s'.CurTok = .char (chr ')') := hat'.1
  refine ⟨getNextToken s', ?_, hat'.next, herr⟩
  simp [Entry.function, ParsePrimary, ParseParenExpr, hcur, hout, hclose]

theorem ParsePrimary_parenInner {t : Token} {msg : String}
    (hinner : Performs σ prec .expression w t (.error msg)) :
    Performs σ prec .primary (.char (chr '(') :: w) t (.error msg) := by
  intro s rest fuel hat ht hfuel
  simp only [List.length_cons, Entry.cost] at hfuel
  obtain ⟨n, rfl, hcur, s', hout, hat', herr⟩ := hinner.inParens fuel hat ht (by omega)
  refine ⟨s', ?_, hat', herr⟩
  simp [Entry.function, ParsePrimary, ParseParenExpr, hcur, hout]

theorem ParsePrimary_parenClose {t : Token} (hinner : Performs σ prec .expression w t (.ok E))
    (hclose : t ≠ .char (chr ')')) :
    Performs σ prec .primary (.char (chr '(') :: w) t (.error "expected ')'") := by
  intro s rest fuel hat ht hfuel
  simp only [List.length_cons, Entry.cost] at hfuel
  obtain ⟨n, rfl, hcur, s', hout, hat', herr⟩ := hinner.inParens fuel hat ht (by omega)
  have hstop : s'.CurTok ≠ .char (chr ')') := by rwa [hat'.curTok, ht]
  have hfun : ParsePrimary prec (n + 2) s = some (LogError "expected ')'" s') := by
    simp [ParsePrimary, ParseParenExpr, hcur, hout, hstop]
  rw [Entry.function, hfun]
  exact returns_logError _ hat' herr

end paren

section arguments
variable {name : Str} {Args : List (ExprAST V)} {w : List (Lexeme V)} {Arg : ExprAST V}

theorem ParseArguments_inner {t : Token} {msg : String}
    (harg : Performs σ prec .expression w t (.error msg)) :
    Performs σ prec (.arguments name Args) w t (.error msg) := by
  intro s rest fuel hat ht hfuel
  obtain ⟨fuel, rfl⟩ := exists_succ _ _ hfuel
  obtain ⟨s', hout, hat', herr⟩ := harg s rest fuel hat ht (by simp only [Entry.cost] at *; omega)
  refine ⟨s', ?_, hat', herr⟩
  simp only [Entry.function] at hout ⊢
  simp [ParseArguments, hout]

theorem ParseArguments_last (t : Token) (harg : Performs σ prec .expression w (.char (chr ')')) (.ok Arg)) :
    Performs σ prec (.arguments name Args) (w ++ [.char (chr ')')]) t
      (.ok (.CallExprAST name (Args ++ [Arg]))) := by
  intro s rest fuel hat ht hfuel
  simp only [List.length_append, List.length_cons, List.length_nil, Entry.cost] at hfuel
  obtain ⟨fuel, rfl⟩ := exists_succ _ _ hfuel
  have hin : s.At (w ++ .char (chr ')') :: rest) := by simpa using hat
  obtain ⟨s', hout, hat', herr⟩ := harg s (.char (chr ')') :: rest) fuel hin rfl
    (by simp only [Entry.cost]; omega)
  have hclose : s'.CurTok = .char (chr ')') := hat'.1
  refine ⟨getNextToken s', ?_, hat'.next, herr⟩
  simp only [Entry.function] at hout ⊢
  simp [ParseArguments, hout, hclose]

theorem ParseArguments_separator {t : Token} (harg : Performs σ prec .expression w t (.ok Arg))
    (hclose : t ≠ .char (chr ')')) (hcomma : t ≠ .char (chr ',')) :
    Performs σ prec (.arguments name Args) w t (.error "Exp ')' ") := by
  intro s rest fuel hat ht hfuel
  obtain ⟨fuel, rfl⟩ := exists_succ _ _ hfuel
  obtain ⟨s', hout, hat', herr⟩ := harg s rest fuel hat ht (by simp only [Entry.cost] at *; omega)
  have hcur : s'.CurTok = t := hat'.curTok.trans ht
  have hfun : ParseArguments prec (fuel + 1) name Args s = some (LogError "Exp ')' " s') := by
    simp only [Entry.function] at hout
    simp [ParseArguments, hout, hcur, hclose, hcomma]
  rw [Entry.function, hfun]
  exact returns_logError _ hat' herr

theorem ParseArguments_next {w' : List (Lexeme V)} {t : Token} {result : Except String (ExprAST V)}
    (harg : Performs σ prec .expression w (.char (chr ',')) (.ok Arg))
    (hrest : Performs σ prec (.arguments name (Args ++ [Arg])) w' t result) :
    Performs σ prec (.arguments name Args) (w ++ .char (chr ',') :: w') t result := by
  intro s rest fuel hat ht hfuel
  simp only [List.length_append, List.length_cons, Entry.cost] at hfuel
  obtain ⟨fuel, rfl⟩ := exists_succ _ _ hfuel
  have hin : s.At (w ++ .char (chr ',') :: (w' ++ rest)) := by simpa using hat
  obtain ⟨s', hout, hat', herr⟩ := harg s (.char (chr ',') :: (w' ++ rest)) fuel hin rfl
    (by simp only [Entry.cost]; omega)
  have hcur : s'.CurTok = .char (chr ',') := hat'.1
  have hret := hrest (getNextToken s') rest fuel hat'.next ht (by simp only [Entry.cost]; omega)
  have hfun : ParseArguments prec (fuel + 1) name Args s =
      ParseArguments prec fuel name (Args ++ [Arg]) (getNextToken s') := by
    simp only [Entry.function] at hout
    simp [ParseArguments, hout, hcur, show chr ',' ≠ chr ')' by decide]
  rw [Entry.function, hfun]
  exact hret.of_stderr herr

end arguments

section binOpRHS
variable {ExprPrec : Int} {LHS RHS : ExprAST V} {op : UInt8} {w w' : List (Lexeme V)} {t : Token}
  {result : Except String (ExprAST V)}

theorem ParseBinOpRHS_stop (hprec : GetTokPrecedence prec t < ExprPrec) :
    Performs σ prec (.binOpRHS ExprPrec LHS) [] t (.ok LHS) := by
  intro s rest fuel hat ht hfuel
  obtain ⟨fuel, rfl⟩ := exists_succ _ _ hfuel
  have hcur : s.CurTok = _ := hat.curTok.trans ht
  exact ⟨s, by simp [Entry.function, ParseBinOpRHS, hcur, hprec], hat, rfl⟩

theorem ParseBinOpRHS_operand {msg : String} (hprec : ExprPrec ≤ GetTokPrecedence prec (.char op))
    (hprimary : Performs σ prec .primary w t (.error msg)) :
    Performs σ prec (.binOpRHS ExprPrec LHS) (.char op :: w) t (.error msg) := by
  intro s rest fuel hat ht hfuel
  simp only [List.length_cons, Entry.cost] at hfuel
  obtain ⟨fuel, rfl⟩ := exists_succ _ _ hfuel
  have hcur : s.CurTok = .char op := hat.1
  obtain ⟨s', hout, hat', herr⟩ := hprimary (getNextToken s) rest fuel hat.next ht
    (by simp only [Entry.cost]; omega)
  refine ⟨s', ?_, hat', herr⟩
  simp only [Entry.function] at hout ⊢
  simp [ParseBinOpRHS, hcur, not_lt.mpr hprec, hout]

/-- Behind an operator the operand is parsed with one unit less. -/
theorem Performs.operand (hprimary : Performs σ prec .primary w (peek w' t) (.ok RHS)) {s : Globals σ V}
    {rest : List (Lexeme V)} (fuel : Nat) (hat : s.At (.char op :: (w ++ (w' ++ rest))))
    (ht : peek rest .tok_eof = t) (hfuel : 3 * w.length + 2 ≤ fuel) :
    ∃ n s', fuel = n + 1 ∧ s.CurTok = .char op ∧ ParsePrimary prec n (getNextToken s) = some (some RHS, s') ∧
      s'.At (w' ++ rest) ∧ s'.CurTok = peek w' t ∧ s'.stderr = s.stderr := by
  obtain ⟨n, rfl⟩ : ∃ n, fuel = n + 1 := ⟨fuel - 1, by omega⟩
  obtain ⟨s', hout, hat', herr⟩ := hprimary (getNextToken s) (w' ++ rest) n hat.next (by rw [peek_append, ht])
    (by simp only [Entry.cost]; omega)
  exact ⟨n, s', rfl, hat.1, hout, hat', by rw [hat'.curTok, peek_append, ht], herr⟩

theorem ParseBinOpRHS_reduce (hprec : ExprPrec ≤ GetTokPrecedence prec (.char op))
    (hprimary : Performs σ prec .primary w (peek w' t) (.ok RHS))
    (hnext : GetTokPrecedence prec (peek w' t) ≤ GetTokPrecedence prec (.char op))
    (hrest : Performs σ prec (.binOpRHS ExprPrec (.BinaryExprAST op LHS RHS)) w' t result) :
    Performs σ prec (.binOpRHS ExprPrec LHS) (.char op :: (w ++ w')) t result := by
  intro s rest fuel hat ht hfuel
  simp only [List.length_cons, List.length_append, Entry.cost] at hfuel
  have hin : s.At (.char op :: (w ++ (w' ++ rest))) := by simpa using hat
  obtain ⟨n, s', rfl, hcur, hout, hat', hcur', herr⟩ := hprimary.operand fuel hin ht (by omega)
  have hret := hrest s' rest n hat' ht (by simp only [Entry.cost]; omega)
  have hfun : ParseBinOpRHS prec (n + 1) ExprPrec LHS s =
      ParseBinOpRHS prec n ExprPrec (.BinaryExprAST op LHS RHS) s' := by
    simp [ParseBinOpRHS, hcur, not_lt.mpr hprec, hout, hcur', not_lt.mpr hnext, Token.toChar]
  rw [Entry.function, hfun]
  exact hret.of_stderr herr

theorem ParseBinOpRHS_nestedError {msg : String} (hprec : ExprPrec ≤ GetTokPrecedence prec (.char op))
    (hprimary : Performs σ prec .primary w (peek w' t) (.ok RHS))
    (hnext : GetTokPrecedence prec (.char op) < GetTokPrecedence prec (peek w' t))
    (hnested : Performs σ prec (.binOpRHS (GetTokPrecedence prec (.char op) + 1) RHS) w' t (.error msg)) :
    Performs σ prec (.binOpRHS ExprPrec LHS) (.char op :: (w ++ w')) t (.error msg) := by
  intro s rest fuel hat ht hfuel
  simp only [List.length_cons, List.length_append, Entry.cost] at hfuel
  have hin : s.At (.char op :: (w ++ (w' ++ rest))) := by simpa using hat
  obtain ⟨n, s', rfl, hcur, hout, hat', hcur', herr⟩ := hprimary.operand fuel hin ht (by omega)
  obtain ⟨s'', hout', hat'', herr'⟩ := hnested s' rest n hat' ht (by simp only [Entry.cost]; omega)
  refine ⟨s'', ?_, hat'', herr'.trans (by rw [herr])⟩
  simp only [Entry.function] at hout' ⊢
  simp [ParseBinOpRHS, hcur, not_lt.mpr hprec, hout, hcur', hnext, hout']

theorem ParseBinOpRHS_nested {RHS' : ExprAST V} {w'' : List (Lexeme V)}
    (hprec : ExprPrec ≤ GetTokPrecedence prec (.char op))
    (hprimary : Performs σ prec .primary w (peek w' (peek w'' t)) (.ok RHS))
    (hnext : GetTokPrecedence prec (.char op) < GetTokPrecedence prec (peek w' (peek w'' t)))
    (hnested : Performs σ prec (.binOpRHS (GetTokPrecedence prec (.char op) + 1) RHS) w' (peek w'' t)
      (.ok RHS'))
    (hrest : Performs σ prec (.binOpRHS ExprPrec (.BinaryExprAST op LHS RHS')) w'' t result) :
    Performs σ prec (.binOpRHS ExprPrec LHS) (.char op :: (w ++ (w' ++ w''))) t result := by
  intro s rest fuel hat ht hfuel
  simp only [List.length_cons, List.length_append, Entry.cost] at hfuel
  have hin : s.At (.char op :: (w ++ (w' ++ (w'' ++ rest)))) := by simpa using hat
  have ht' : peek (w'' ++ rest) .tok_eof = peek w'' t := by rw [peek_append, ht]
  obtain ⟨n, s', rfl, hcur, hout, hat', hcur', herr⟩ := hprimary.operand fuel hin ht' (by omega)
  obtain ⟨s'', hout', hat'', herr'⟩ := hnested s' (w'' ++ rest) n hat' ht'
    (by simp only [Entry.cost]; omega)
  have hret := hrest s'' rest n hat'' ht (by simp only [Entry.cost]; omega)
  have hfun : ParseBinOpRHS prec (n + 1) ExprPrec LHS s =
      ParseBinOpRHS prec n ExprPrec (.BinaryExprAST op LHS RHS') s'' := by
    simp only [Entry.function] at hout'
    simp [ParseBinOpRHS, hcur, not_lt.mpr hprec, hout, hcur', hnext, hout', Token.toChar]
  rw [Entry.function, hfun]
  exact hret.of_stderr (herr'.trans herr)

end binOpRHS

theorem ParseExpression_inner {w : List (Lexeme V)} {t : Token} {msg : String}
    (hprimary : Performs σ prec .primary w t (.error msg)) :
    Performs σ prec .expression w t (.error msg) := by
  intro s rest fuel hat ht hfuel
  obtain ⟨fuel, rfl⟩ := exists_succ _ _ hfuel
  obtain ⟨s', hout, hat', herr⟩ := hprimary s rest fuel hat ht (by simp only [Entry.cost] at *; omega)
  refine ⟨s', ?_, hat', herr⟩
  simp only [Entry.function] at hout ⊢
  simp [ParseExpression, hout]

theorem ParseExpression_chain {w w' : List (Lexeme V)} {t : Token} {LHS : ExprAST V}
    {result : Except String (ExprAST V)} (hprimary : Performs σ prec .primary w (peek w' t) (.ok LHS))
    (hrest : Performs σ prec (.binOpRHS 0 LHS) w' t result) :
    Performs σ prec .expression (w ++ w') t result := by
  intro s rest fuel hat ht hfuel
  simp only [List.length_append, Entry.cost] at hfuel
  obtain ⟨fuel, rfl⟩ := exists_succ _ _ hfuel
  obtain ⟨s', hout, hat', herr⟩ := hprimary s (w' ++ rest) fuel (by simpa using hat) (by simp [ht])
    (by simp only [Entry.cost]; omega)
  have hret := hrest s' rest fuel hat' ht (by simp only [Entry.cost]; omega)
  have hfun : ParseExpression prec (fuel + 1) s = ParseBinOpRHS prec fuel 0 LHS s' := by
    simp only [Entry.function] at hout
    simp [ParseExpression, hout]
  rw [Entry.function, hfun]
  exact hret.of_stderr herr

/-- Every run is what the functions of the source do. -/
theorem Runs.returns {entry : Entry V} {w : List (Lexeme V)} {t : Token}
    {result : Except String (ExprAST V)} (h : Runs prec entry w t result) :
    Performs σ prec entry w t result := by
  induction h with
  | unknown hid hnum hopen => exact ParsePrimary_unknown hid hnum hopen
  | number v t => exact ParsePrimary_number v t
  | var name hopen => exact ParsePrimary_var name hopen
  | callEmpty name t => exact ParsePrimary_callEmpty name t
  | call name hclose hargs ih => exact ParsePrimary_call hclose ih
  | paren t hinner ih => exact ParsePrimary_paren t ih
  | parenInner hinner ih => exact ParsePrimary_parenInner ih
  | parenClose hinner hclose ih => exact ParsePrimary_parenClose ih hclose
  | argInner harg ih => exact ParseArguments_inner ih
  | argLast t harg ih => exact ParseArguments_last t ih
  | argSeparator harg hclose hcomma ih => exact ParseArguments_separator ih hclose hcomma
  | argNext harg hrest iharg ihrest => exact ParseArguments_next iharg ihrest
  | stop hprec => exact ParseBinOpRHS_stop hprec
  | operand hprec hprimary ih => exact ParseBinOpRHS_operand hprec ih
  | reduce hprec hprimary hnext hrest ihprimary ihrest =>
    exact ParseBinOpRHS_reduce hprec ihprimary hnext ihrest
  | nestedError hprec hprimary hnext hnested ihprimary ihnested =>
    exact ParseBinOpRHS_nestedError hprec ihprimary hnext ihnested
  | nested hprec hprimary hnext hnested hrest ihprimary ihnested ihrest =>
    exact ParseBinOpRHS_nested hprec ihprimary hnext ihnested ihrest
  | exprInner hprimary ih => exact ParseExpression_inner ih
  | expr hprimary hrest ihprimary ihrest => exact ParseExpression_chain ihprimary ihrest

theorem Returns.unique {α : Type} {s : Globals σ V} {rest rest' : List (Lexeme V)}
    {result result' : Except String α} {out : Outcome σ V α} (h : Returns s rest result out)
    (h' : Returns s rest' result' out) : result = result' ∧ rest = rest' := by
  cases result <;> cases result' <;> obtain ⟨s', rfl, hat, herr⟩ := h <;>
    obtain ⟨s'', hout, hat', herr'⟩ := h' <;> cases hout
  · rw [herr] at herr'
    simp only [List.append_cancel_left_eq, List.cons.injEq, Report.LogError.injEq, and_true] at herr'
    exact ⟨by rw [herr'], hat.unique hat'⟩
  · exact ⟨rfl, hat.unique hat'⟩

end accelerators.kaleidoscope
