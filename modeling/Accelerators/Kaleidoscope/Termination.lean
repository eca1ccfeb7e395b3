import Accelerators.Kaleidoscope.Lexer.Lexes
import Accelerators.Kaleidoscope.TopLevel.Session

namespace accelerators.kaleidoscope

variable {V : Type} {strtod : Str → V} {prec : UInt8 → Int}

/-- The globals at program start, in front of the bytes of the input. -/
def Globals.start (strtod : Str → V) (zero : V) (input : List UInt8) : Globals (Stdin strtod) V where
  source := ⟨some (chr ' '), input⟩
  IdentifierStr := []
  NumVal := zero
  CurTok := .char 0
  stderr := []

/-- The parsing functions of the source return from the state `s`.
    `ParseBinOpRHS` is only called with a minimum precedence that is not negative. -/
structure ParsersReturn {σ : Type} [TokenSource σ V] (prec : UInt8 → Int) (fuel : Nat)
    (s : Globals σ V) : Prop where
  paren : (ParseParenExpr prec fuel s).isSome
  identifier : (ParseIdentifierExpr prec fuel s).isSome
  arguments : ∀ IdName Args, (ParseArguments prec fuel IdName Args s).isSome
  primary : (ParsePrimary prec fuel s).isSome
  binOpRHS : ∀ ExprPrec LHS, 0 ≤ ExprPrec → (ParseBinOpRHS prec fuel ExprPrec LHS s).isSome
  expression : (ParseExpression prec fuel s).isSome
  prototype : (ParsePrototype fuel s).isSome
  definition : (ParseDefinition prec fuel s).isSome
  topLevelExpr : (ParseTopLevelExpr prec fuel s).isSome
  externProto : (ParseExtern fuel s).isSome

section
variable {σ : Type} [TokenSource σ V]

theorem Returns.isSome {α : Type} {s : Globals σ V} {rest : List (Lexeme V)} {result : Except String α}
    {out : Outcome σ V α} (h : Returns s rest result out) : out.isSome := by
  cases result with
  | ok a =>
    obtain ⟨s', rfl, -⟩ := h
    rfl
  | error msg =>
    obtain ⟨s', rfl, -⟩ := h
    rfl

theorem Globals.At.function_isSome (prec : UInt8 → Int) {s : Globals σ V} {ts : List (Lexeme V)}
    (hat : s.At ts) (entry : Entry V) (hentry : entry.Valid) (fuel : Nat)
    (hfuel : 3 * ts.length + entry.cost ≤ fuel) :
    (entry.function prec fuel s).isSome := by
  obtain ⟨w, rest, result, rfl, hrun⟩ := halts prec ts entry hentry
  simp only [List.length_append] at hfuel
  exact (hrun.returns s rest fuel hat rfl (by omega)).isSome

theorem Globals.At.prototype_isSome {s : Globals σ V} {ts : List (Lexeme V)} (hat : s.At ts) {fuel : Nat}
    (hfuel : ts.length + 1 ≤ fuel) : (ParsePrototype fuel s).isSome := by
  obtain ⟨w, rest, result, rfl, hproto⟩ := proto_halts ts
  simp only [List.length_append] at hfuel
  exact (hproto.returns s rest fuel hat rfl (by omega)).isSome

/-- A parsing function that finds the end of input does not read on. -/
theorem function_isSome_of_eof {s : Globals σ V} (heof : s.CurTok = .tok_eof) (entry : Entry V)
    (hentry : entry.Valid) (fuel : Nat) : (entry.function prec (fuel + 3) s).isSome := by
  have hprimary : ∀ fuel, ParsePrimary prec (fuel + 1) s = some (LogError "unk tok" s) := by
    simp [ParsePrimary, heof]
  cases entry with
  | primary => simp [Entry.function, hprimary]
  | arguments IdName Args => simp [Entry.function, ParseArguments, ParseExpression, hprimary, LogError]
  | expression => simp [Entry.function, ParseExpression, hprimary, LogError]
  | binOpRHS ExprPrec LHS =>
    have hprec : GetTokPrecedence prec s.CurTok < ExprPrec := by
      simp only [Entry.Valid] at hentry
      simp only [heof, GetTokPrecedence]
      omega
    simp [Entry.function, ParseBinOpRHS, hprec]

end

theorem exists_drains (g : Lexical (Stdin strtod) V) :
    ∃ ts : List (Lexeme V), Drains g ts ∧ ts.length ≤ g.source.unread.length := by
  obtain ⟨ts, hlexes, hle⟩ := exists_lexes g.source.unread
  exact ⟨_, hlexes.drains g rfl, by simpa using hle⟩

/-- Every state whose lookahead is a token stands in front of finitely many
    tokens, no more than one for each unread byte besides the lookahead. -/
theorem exists_at {s : Globals (Stdin strtod) V} (hcur : s.CurTok ≠ .tok_eof) :
    ∃ ts, s.At ts ∧ ts.length ≤ s.source.unread.length + 1 := by
  obtain ⟨ts, hdrains, hle⟩ := exists_drains s.toLexical
  obtain ⟨x, hx, hstored⟩ : ∃ x : Lexeme V, s.CurTok = x.token ∧ x.StoredIn s.toLexical := by
    cases h : s.CurTok with
    | tok_eof => exact absurd h hcur
    | tok_def => exact ⟨.defKeyword, rfl, trivial⟩
    | tok_extern => exact ⟨.externKeyword, rfl, trivial⟩
    | tok_identifier => exact ⟨.identifier s.IdentifierStr, rfl, rfl⟩
    | tok_number => exact ⟨.number s.NumVal, rfl, rfl⟩
    | char c => exact ⟨.char c, rfl, trivial⟩
  exact ⟨x :: ts, ⟨hx, hstored, hdrains⟩, by simpa using hle⟩

theorem function_isSome (s : Globals (Stdin strtod) V) (entry : Entry V) (hentry : entry.Valid) {fuel : Nat}
    (hfuel : 3 * s.source.unread.length + 6 ≤ fuel) : (entry.function prec fuel s).isSome := by
  by_cases heof : s.CurTok = .tok_eof
  · obtain ⟨fuel, rfl⟩ : ∃ n, fuel = n + 3 := ⟨fuel - 3, by omega⟩
    exact function_isSome_of_eof heof entry hentry fuel
  · obtain ⟨ts, hat, hle⟩ := exists_at heof
    have hcost : entry.cost ≤ 3 := by cases entry <;> simp [Entry.cost]
    exact hat.function_isSome prec entry hentry fuel (by omega)

theorem prototype_isSome (s : Globals (Stdin strtod) V) {fuel : Nat}
    (hfuel : 3 * s.source.unread.length + 6 ≤ fuel) : (ParsePrototype fuel s).isSome := by
  by_cases heof : s.CurTok = .tok_eof
  · simp [ParsePrototype, heof]
  · obtain ⟨ts, hat, hle⟩ := exists_at heof
    exact hat.prototype_isSome (by omega)

theorem parenExpr_isSome (s : Globals (Stdin strtod) V) {fuel : Nat}
    (hfuel : 3 * s.source.unread.length + 6 ≤ fuel) : (ParseParenExpr prec fuel s).isSome := by
  obtain ⟨ts, hdrains, hle⟩ := exists_drains s.toLexical
  obtain ⟨n, rfl⟩ : ∃ n, fuel = n + 1 := ⟨fuel - 1, by omega⟩
  have hinner := hdrains.getNextToken.function_isSome prec .expression trivial n
    (by simp only [Entry.cost]; omega)
  obtain ⟨⟨E, s'⟩, hout⟩ := Option.isSome_iff_exists.mp hinner
  simp only [Entry.function] at hout
  rw [ParseParenExpr, hout]
  cases E with
  | none => rfl
  | some E =>
    simp only
    split <;> rfl

theorem identifierExpr_isSome (s : Globals (Stdin strtod) V) {fuel : Nat}
    (hfuel : 3 * s.source.unread.length + 6 ≤ fuel) : (ParseIdentifierExpr prec fuel s).isSome := by
  obtain ⟨ts, hdrains, hle⟩ := exists_drains s.toLexical
  obtain ⟨n, rfl⟩ : ∃ n, fuel = n + 1 := ⟨fuel - 1, by omega⟩
  have hargs := hdrains.getNextToken.getNextToken.function_isSome prec (.arguments s.IdentifierStr []) trivial n
    (by simp only [Entry.cost, List.length_tail]; omega)
  simp only [Entry.function] at hargs
  rw [ParseIdentifierExpr]
  simp only
  split_ifs
  · rfl
  · exact hargs
  · rfl

theorem definition_isSome (s : Globals (Stdin strtod) V) {fuel : Nat}
    (hfuel : 3 * s.source.unread.length + 6 ≤ fuel) : (ParseDefinition prec fuel s).isSome := by
  obtain ⟨ts, hdrains, hle⟩ := exists_drains s.toLexical
  obtain ⟨w, rest, result, rfl, hproto⟩ := proto_halts ts
  simp only [List.length_append] at hle
  have hret := hproto.returns _ rest fuel hdrains.getNextToken rfl (by omega)
  rw [ParseDefinition]
  cases result with
  | error msg =>
    obtain ⟨s', hout, -⟩ := hret
    rw [hout]
    rfl
  | ok Proto =>
    obtain ⟨s', hout, hat, -⟩ := hret
    have hbody := hat.function_isSome prec .expression trivial fuel
      (by simp only [Entry.cost]; omega)
    obtain ⟨⟨E, s''⟩, hout'⟩ := Option.isSome_iff_exists.mp hbody
    simp only [Entry.function] at hout'
    simp only [hout, hout']
    cases E <;> rfl

theorem topLevelExpr_isSome (s : Globals (Stdin strtod) V) {fuel : Nat}
    (hfuel : 3 * s.source.unread.length + 6 ≤ fuel) : (ParseTopLevelExpr prec fuel s).isSome := by
  have hexpression : (ParseExpression prec fuel s).isSome := function_isSome s .expression trivial hfuel
  obtain ⟨⟨E, s'⟩, hout⟩ := Option.isSome_iff_exists.mp hexpression
  rw [ParseTopLevelExpr, hout]
  cases E <;> rfl

theorem externProto_isSome (s : Globals (Stdin strtod) V) {fuel : Nat}
    (hfuel : 3 * s.source.unread.length + 6 ≤ fuel) : (ParseExtern fuel s).isSome := by
  obtain ⟨ts, hdrains, hle⟩ := exists_drains s.toLexical
  apply hdrains.getNextToken.prototype_isSome
  omega

/-- Every parsing function returns from every state, valid input or not. -/
theorem parsersReturn (s : Globals (Stdin strtod) V) {fuel : Nat}
    (hfuel : 3 * s.source.unread.length + 6 ≤ fuel) : ParsersReturn prec fuel s where
  paren := parenExpr_isSome s hfuel
  identifier := identifierExpr_isSome s hfuel
  arguments := fun IdName Args => function_isSome s (.arguments IdName Args) trivial hfuel
  primary := function_isSome s .primary trivial hfuel
  binOpRHS := fun ExprPrec LHS hprec => function_isSome s (.binOpRHS ExprPrec LHS) hprec hfuel
  expression := function_isSome s .expression trivial hfuel
  prototype := prototype_isSome s hfuel
  definition := definition_isSome s hfuel
  topLevelExpr := topLevelExpr_isSome s hfuel
  externProto := externProto_isSome s hfuel

/-- On every finite input the program terminates: `main` returns at `tok_eof`,
    `MainLoop` looks at `CurTok` once for each token that `gettok` delivers and
    once more for the end of input at most, and wherever a parsing function is
    called on the way, it returns. -/
theorem main_terminates (strtod : Str → V) (zero : V) (input : List UInt8) (fuel : Nat)
    (hfuel : 3 * input.length + 6 ≤ fuel) :
    ∃ ts, Drains (Globals.start strtod zero input).toLexical ts ∧ ts.length ≤ input.length ∧
      (∃ s' out, main fuel (Globals.start strtod zero input) = some s' ∧ s'.CurTok = .tok_eof ∧
        s'.stderr = .prompt "ready> " :: out ∧ prompts out ≤ ts.length + 1) ∧
      ∀ (prec : UInt8 → Int) (s : Globals (Stdin strtod) V), s.source.unread.length ≤ input.length →
        ParsersReturn prec fuel s := by
  obtain ⟨ts, hlexes, hle⟩ := exists_lexes input
  have hdrains : Drains (Globals.start strtod zero input).toLexical (ts.map (Lexeme.convert strtod)) :=
    (Lexes.space (by decide) hlexes).drains _ rfl
  have hat := hdrains.getNextToken
  obtain ⟨out, hsession, hcount⟩ := exists_session standardPrecedence (ts.map (Lexeme.convert strtod))
  simp only [List.length_map] at hcount
  obtain ⟨s', hloop, hat', herr⟩ := hsession.mainLoop _ (hat.report (.prompt "ready> ")) fuel
    (by simp only [List.length_map]; omega)
  refine ⟨_, hdrains, by simpa using hle, ⟨s', out, hloop, hat'.1, herr, by simpa using hcount⟩, ?_⟩
  exact fun prec s hs => parsersReturn s (by omega)

/-- Input that ends inside a prototype. -/
theorem main_terminates_in_prototype :
    ∃ s', main 24 (Globals.start id [] (str "def f(")) = some s' ∧ s'.CurTok = .tok_eof := by
  obtain ⟨ts, -, -, ⟨s', out, hmain, heof, -⟩, -⟩ :=
    main_terminates id [] (str "def f(") 24 (by decide)
  exact ⟨s', hmain, heof⟩

end accelerators.kaleidoscope
