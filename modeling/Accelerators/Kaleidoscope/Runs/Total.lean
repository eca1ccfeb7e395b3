import Accelerators.Kaleidoscope.Runs

namespace accelerators.kaleidoscope

variable {V : Type} {prec : UInt8 → Int}

theorem GetTokPrecedence_pos {t : Token} (h : 0 ≤ GetTokPrecedence prec t) :
    ∃ op, t = .char op ∧ 0 < GetTokPrecedence prec (.char op) := by
  cases t with
  | char op =>
    refine ⟨op, rfl, ?_⟩
    simp only [GetTokPrecedence] at h ⊢
    split_ifs at h ⊢ <;> omega
  | _ => simp [GetTokPrecedence] at h

/-- The minimum precedences that `ParseBinOpRHS` is called with. -/
def Entry.Valid : Entry V → Prop
  | .binOpRHS ExprPrec _ => 0 ≤ ExprPrec
  | _ => True

/-- Some run from `entry` consumes a prefix of `ts`, looking at the token after it. -/
def Halts (prec : UInt8 → Int) (entry : Entry V) (ts : List (Lexeme V)) : Prop :=
  ∃ w rest result, ts = w ++ rest ∧ Runs prec entry w (peek rest .tok_eof) result

theorem exists_cons_of_peek {ts : List (Lexeme V)} {c : UInt8} (h : peek ts .tok_eof = .char c) :
    ∃ rest, ts = .char c :: rest := by
  cases ts with
  | nil => cases h
  | cons x rest =>
    cases x with
    | char d =>
      simp only [peek_cons, Lexeme.token, Token.char.injEq] at h
      exact ⟨rest, by rw [h]⟩
    | _ => cases h

theorem halts_binOpRHS {ts : List (Lexeme V)}
    (ih : ∀ ts' : List (Lexeme V), ts'.length < ts.length → ∀ entry, entry.Valid → Halts prec entry ts')
    {ExprPrec : Int} (hprec : 0 ≤ ExprPrec) (LHS : ExprAST V) :
    Halts prec (.binOpRHS ExprPrec LHS) ts := by
  by_cases hstop : GetTokPrecedence prec (peek ts .tok_eof) < ExprPrec
  · exact ⟨[], ts, _, rfl, .stop hstop⟩
  have hle := not_lt.mp hstop
  obtain ⟨op, hop, hpos⟩ := GetTokPrecedence_pos (hprec.trans hle)
  obtain ⟨after, rfl⟩ := exists_cons_of_peek hop
  obtain ⟨w, rest, result, rfl, hprimary⟩ := ih after (by simp) .primary trivial
  cases result with
  | error msg => exact ⟨_, rest, _, rfl, .operand hle hprimary⟩
  | ok RHS =>
    by_cases hnext : GetTokPrecedence prec (.char op) < GetTokPrecedence prec (peek rest .tok_eof)
    · obtain ⟨w', rest', result, rfl, hnested⟩ :=
        ih rest (by simp only [List.length_append, List.length_cons]; omega)
        (.binOpRHS (GetTokPrecedence prec (.char op) + 1) RHS) (by simp only [Entry.Valid]; omega)
      simp only [peek_append] at hprimary hnext
      cases result with
      | error msg => exact ⟨_, rest', _, by simp, .nestedError hle hprimary hnext hnested⟩
      | ok RHS' =>
        obtain ⟨w'', rest'', result, rfl, hrest⟩ := ih rest'
          (by simp only [List.length_append, List.length_cons]; omega)
          (.binOpRHS ExprPrec (.BinaryExprAST op LHS RHS')) hprec
        simp only [peek_append] at hprimary hnext hnested
        exact ⟨_, rest'', _, by simp, .nested hle hprimary hnext hnested hrest⟩
    · obtain ⟨w', rest', result, rfl, hrest⟩ :=
        ih rest (by simp only [List.length_append, List.length_cons]; omega)
        (.binOpRHS ExprPrec (.BinaryExprAST op LHS RHS)) hprec
      simp only [peek_append] at hprimary hnext
      exact ⟨_, rest', _, by simp, .reduce hle hprimary (not_lt.mp hnext) hrest⟩

theorem halts_primary {ts : List (Lexeme V)}
    (ih : ∀ ts' : List (Lexeme V), ts'.length < ts.length → ∀ entry, entry.Valid → Halts prec entry ts') :
    Halts prec .primary ts := by
  cases ts with
  | nil => exact ⟨[], [], _, rfl, .unknown (by simp) (by simp) (by simp)⟩
  | cons x after =>
    cases x with
    | number v => exact ⟨[.number v], after, _, rfl, .number v _⟩
    | identifier name =>
      by_cases hopen : peek after .tok_eof = .char (chr '(')
      · obtain ⟨rest, rfl⟩ := exists_cons_of_peek hopen
        by_cases hclose : peek rest .tok_eof = .char (chr ')')
        · obtain ⟨rest, rfl⟩ := exists_cons_of_peek hclose
          exact ⟨[.identifier name, .char (chr '('), .char (chr ')')], rest, _, rfl, .callEmpty name _⟩
        · obtain ⟨w, rest, result, rfl, hargs⟩ := ih rest (by simp only [List.length_cons]; omega)
            (.arguments name []) trivial
          exact ⟨_, rest, _, rfl, .call name (by simpa using hclose) hargs⟩
      · exact ⟨[.identifier name], after, _, rfl, .var name hopen⟩
    | char c =>
      by_cases hopen : c = chr '('
      · subst hopen
        obtain ⟨w, rest, result, rfl, hinner⟩ := ih after (by simp) .expression trivial
        cases result with
        | error msg => exact ⟨_, rest, _, rfl, .parenInner hinner⟩
        | ok E =>
          by_cases hclose : peek rest .tok_eof = .char (chr ')')
          · obtain ⟨rest, rfl⟩ := exists_cons_of_peek hclose
            exact ⟨_, rest, _, by simp, .paren _ hinner⟩
          · exact ⟨_, rest, _, rfl, .parenClose hinner hclose⟩
      · exact ⟨[], _, _, rfl, .unknown (by simp [Lexeme.token]) (by simp [Lexeme.token])
          (by simpa [Lexeme.token] using hopen)⟩
    | defKeyword => exact ⟨[], _, _, rfl, .unknown (by simp [Lexeme.token]) (by simp [Lexeme.token])
        (by simp [Lexeme.token])⟩
    | externKeyword => exact ⟨[], _, _, rfl, .unknown (by simp [Lexeme.token]) (by simp [Lexeme.token])
        (by simp [Lexeme.token])⟩

/-- The expression parser comes to an end on every finite token stream,
    grammatical or not, from every entry point. -/
theorem halts (prec : UInt8 → Int) (ts : List (Lexeme V)) (entry : Entry V) (hentry : entry.Valid) :
    Halts prec entry ts := by
  -- induction on the tokens left; at one length the order is primary, expression, arguments
  induction hlen : ts.length using Nat.strong_induction_on generalizing ts entry with
  | _ n ih =>
    have hshorter : ∀ ts' : List (Lexeme V), ts'.length < ts.length →
        ∀ entry, entry.Valid → Halts prec entry ts' :=
      fun ts' hlt entry hentry => ih ts'.length (hlen ▸ hlt) ts' entry hentry rfl
    have hexpression : Halts prec .expression ts := by
      obtain ⟨w, rest, result, rfl, hprimary⟩ := halts_primary hshorter
      cases result with
      | error msg => exact ⟨w, rest, _, rfl, .exprInner hprimary⟩
      | ok LHS =>
        have hrest : ∀ ts' : List (Lexeme V), ts'.length < rest.length →
            ∀ entry, entry.Valid → Halts prec entry ts' :=
          fun ts' hlt => hshorter ts' (by simp only [List.length_append]; omega)
        obtain ⟨w', rest, result, rfl, hrhs⟩ := halts_binOpRHS hrest le_rfl LHS
        simp only [peek_append] at hprimary
        exact ⟨_, rest, _, by simp, .expr hprimary hrhs⟩
    cases entry with
    | primary => exact halts_primary hshorter
    | binOpRHS ExprPrec LHS => exact halts_binOpRHS hshorter hentry LHS
    | expression => exact hexpression
    | arguments name Args =>
      obtain ⟨w, rest, result, rfl, harg⟩ := hexpression
      cases result with
      | error msg => exact ⟨w, rest, _, rfl, .argInner harg⟩
      | ok Arg =>
        by_cases hclose : peek rest .tok_eof = .char (chr ')')
        · obtain ⟨rest, rfl⟩ := exists_cons_of_peek hclose
          exact ⟨_, rest, _, by simp, .argLast _ harg⟩
        · by_cases hcomma : peek rest .tok_eof = .char (chr ',')
          · obtain ⟨rest, rfl⟩ := exists_cons_of_peek hcomma
            obtain ⟨w', rest, result, rfl, hargs⟩ := hshorter rest
              (by simp only [List.length_append, List.length_cons]; omega)
              (.arguments name (Args ++ [Arg])) trivial
            exact ⟨_, rest, _, by simp, .argNext harg hargs⟩
          · exact ⟨w, rest, _, rfl, .argSeparator harg hclose hcomma⟩

end accelerators.kaleidoscope
