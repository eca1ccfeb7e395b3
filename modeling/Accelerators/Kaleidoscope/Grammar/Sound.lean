import Accelerators.Kaleidoscope.Grammar
import Accelerators.Kaleidoscope.Runs.Total

namespace accelerators.kaleidoscope

variable {V : Type} {prec : UInt8 → Int}

/-- What a successful run from an entry point has read: tokens `w` in front of
    a token of kind `t`, returned as the tree `E`. -/
def Entry.Accepts (prec : UInt8 → Int) (w : List (Lexeme V)) (t : Token) (E : ExprAST V) : Entry V → Prop
  | .primary => IsPrimary prec w E ∧ (EndsInIdentifier w → t ≠ .char (chr '('))
  | .arguments name Args => ∃ args : List (List (Lexeme V) × ExprAST V), args ≠ [] ∧
      (∀ arg ∈ args, IsExpr prec arg.1 arg.2) ∧
      w = commaSeparated (args.map Prod.fst) ++ [.char (chr ')')] ∧
      E = .CallExprAST name (Args ++ args.map Prod.snd)
  | .binOpRHS ExprPrec LHS => ∃ links : List (Link V), w = linkTokens links ∧
      (∀ x ∈ links, ExprPrec ≤ GetTokPrecedence prec (.char x.op)) ∧
      (∀ x ∈ links, IsPrimary prec x.tokens x.tree) ∧ E = chainTree prec LHS links ∧
      GetTokPrecedence prec t < ExprPrec ∧ (EndsInIdentifier w → t ≠ .char (chr '('))
  | .expression => IsExpr prec w E ∧ MunchedBefore prec w t

theorem head_prec_le {links : List (Link V)} {t : Token} {bound : Int}
    (h : GetTokPrecedence prec (peek (linkTokens links) t) ≤ bound) :
    ∀ y ∈ links.head?, GetTokPrecedence prec (.char y.op) ≤ bound := by
  cases links with
  | nil => simp
  | cons y ys => simpa [Lexeme.token] using h

theorem munch_append {u v : List (Lexeme V)} {t : Token}
    (hu : EndsInIdentifier u → peek v t ≠ .char (chr '('))
    (hv : EndsInIdentifier v → t ≠ .char (chr '(')) : EndsInIdentifier (u ++ v) → t ≠ .char (chr '(') := by
  intro h
  by_cases hne : v = []
  · subst hne
    exact hu (by simpa using h)
  · exact hv (h.of_append hne)

theorem not_endsInIdentifier_operator (op : UInt8) : ¬ EndsInIdentifier [(.char op : Lexeme V)] :=
  not_endsInIdentifier_char [] op

theorem operator_pos {op : UInt8} (h : 0 ≤ GetTokPrecedence prec (.char op)) :
    0 < GetTokPrecedence prec (.char op) := by
  obtain ⟨op, hop, hpos⟩ := GetTokPrecedence_pos h
  cases hop
  exact hpos

/-- A successful run has read a maximal phrase of the grammar, and returns the
    reference tree of that phrase. -/
theorem Runs.sound {entry : Entry V} {w : List (Lexeme V)} {t : Token}
    {result : Except String (ExprAST V)} (h : Runs prec entry w t result) (hentry : entry.Valid)
    {E : ExprAST V} (hok : result = .ok E) : entry.Accepts prec w t E := by
  induction h generalizing E with
  | unknown | parenInner | parenClose | argInner | argSeparator | operand | nestedError | exprInner =>
    cases hok
  | number v t =>
    cases hok
    exact ⟨.number v, by simp [EndsInIdentifier]⟩
  | var name hopen =>
    cases hok
    exact ⟨.identifier name, fun _ => hopen⟩
  | callEmpty name t =>
    cases hok
    exact ⟨.call name [] (by simp), fun h => absurd h (not_endsInIdentifier_char [_, _] _)⟩
  | call name hclose hargs ih =>
    obtain ⟨args, hne, hexprs, rfl, rfl⟩ := ih trivial hok
    exact ⟨.call name args hexprs, fun h => absurd h (not_endsInIdentifier_char (_ :: _ :: _) _)⟩
  | paren t hinner ih =>
    cases hok
    exact ⟨.paren (ih trivial rfl).1, fun h => absurd h (not_endsInIdentifier_char (_ :: _) _)⟩
  | @argLast name Args w Arg t harg ih =>
    cases hok
    exact ⟨[(w, Arg)], by simp, by simpa using (ih trivial rfl).1, rfl, rfl⟩
  | @argNext name Args w w' t Arg result harg hrest iharg ihrest =>
    obtain ⟨args, hne, hexprs, rfl, rfl⟩ := ihrest trivial hok
    refine ⟨(w, Arg) :: args, by simp, ?_, ?_, by simp⟩
    · exact List.forall_mem_cons.mpr ⟨(iharg trivial rfl).1, hexprs⟩
    · rw [List.map_cons, commaSeparated_cons (by simpa using hne)]
      simp
  | stop hprec =>
    cases hok
    exact ⟨[], rfl, by simp, by simp, by simp, hprec, fun h => absurd h not_endsInIdentifier_nil⟩
  | @reduce ExprPrec LHS RHS op w w' t result hprec hprimary hnext hrest ihprimary ihrest =>
    obtain ⟨hop, hmunch⟩ := ihprimary trivial rfl
    obtain ⟨links, rfl, hops, hoperands, rfl, hstop, hmunch'⟩ := ihrest hentry hok
    refine ⟨⟨op, w, RHS⟩ :: links, rfl, List.forall_mem_cons.mpr ⟨hprec, hops⟩,
      List.forall_mem_cons.mpr ⟨hop, hoperands⟩,
      ?_, hstop, ?_⟩
    · have htree := chainTree_reduce LHS ⟨op, w, RHS⟩ (List.forall_mem_nil _) (head_prec_le hnext)
      simpa using htree.symm
    · exact munch_append (u := [.char op]) (fun h => absurd h (not_endsInIdentifier_operator op))
        (munch_append hmunch hmunch')
  | @nested ExprPrec LHS RHS RHS' op w w' w'' t result hprec hprimary hnext hnested hrest ihprimary
      ihnested ihrest =>
    obtain ⟨hop, hmunch⟩ := ihprimary trivial rfl
    have hnonneg : 0 ≤ GetTokPrecedence prec (.char op) + 1 := by
      have h : (0 : Int) ≤ ExprPrec := hentry
      omega
    obtain ⟨tight, rfl, htight, hinner, rfl, hafter, hmunch'⟩ := ihnested hnonneg rfl
    obtain ⟨links, rfl, hops, hoperands, rfl, hstop, hmunch''⟩ := ihrest hentry hok
    refine ⟨⟨op, w, RHS⟩ :: (tight ++ links), by simp, ?_, ?_, ?_, hstop, ?_⟩
    · refine List.forall_mem_cons.mpr ⟨hprec, List.forall_mem_append.mpr ⟨?_, hops⟩⟩
      intro x hx
      have := htight x hx
      omega
    · exact List.forall_mem_cons.mpr ⟨hop, List.forall_mem_append.mpr ⟨hinner, hoperands⟩⟩
    · exact (chainTree_reduce LHS ⟨op, w, RHS⟩ (fun x hx => Int.lt_of_add_one_le (htight x hx))
        (head_prec_le (Int.le_of_lt_add_one hafter))).symm
    · exact munch_append (u := [.char op]) (fun h => absurd h (not_endsInIdentifier_operator op))
        (munch_append (by simpa using hmunch) (munch_append hmunch' hmunch''))
  | expr hprimary hrest ihprimary ihrest =>
    obtain ⟨hfirst, hmunch⟩ := ihprimary trivial rfl
    obtain ⟨links, rfl, hops, hoperands, rfl, hstop, hmunch'⟩ := ihrest le_rfl hok
    exact ⟨.chain hfirst (fun x hx => operator_pos (hops x hx)) hoperands, hstop, munch_append hmunch hmunch'⟩

/-- An unfinished phrase: some continuation of `w` is what the entry point accepts. -/
def Entry.Extends (prec : UInt8 → Int) (w : List (Lexeme V)) : Entry V → Prop
  | .primary => ∃ z E, IsPrimary prec (w ++ z) E
  | .arguments _ _ => ∃ z, ∃ args : List (List (Lexeme V) × ExprAST V), args ≠ [] ∧
      (∀ arg ∈ args, IsExpr prec arg.1 arg.2) ∧
      w ++ z = commaSeparated (args.map Prod.fst) ++ [.char (chr ')')]
  | .binOpRHS _ _ => ∃ z, ∃ links : List (Link V), w ++ z = linkTokens links ∧
      (∀ x ∈ links, 0 < GetTokPrecedence prec (.char x.op)) ∧
      ∀ x ∈ links, IsPrimary prec x.tokens x.tree
  | .expression => ∃ z E, IsExpr prec (w ++ z) E

theorem IsPrimary.expr {w : List (Lexeme V)} {E : ExprAST V} (h : IsPrimary prec w E) :
    IsExpr prec w E := by
  have hchain : IsExpr prec (w ++ linkTokens []) (chainTree prec E []) := .chain h (by simp) (by simp)
  simpa using hchain

/-- A failed run has read a beginning of a phrase of the grammar, and nothing else. -/
theorem Runs.viable {entry : Entry V} {w : List (Lexeme V)} {t : Token}
    {result : Except String (ExprAST V)} (h : Runs prec entry w t result) (hentry : entry.Valid)
    {msg : String} (herror : result = .error msg) : entry.Extends prec w := by
  induction h with
  | number | var | callEmpty | paren | argLast | stop => cases herror
  | unknown => exact ⟨[.identifier (str "x")], _, .identifier _⟩
  | call name hclose hargs ih =>
    obtain ⟨z, args, hne, hexprs, hw⟩ := ih trivial herror
    exact ⟨z, _, by simpa [hw] using IsPrimary.call name args hexprs⟩
  | parenInner hinner ih =>
    obtain ⟨z, E, hexpr⟩ := ih trivial herror
    exact ⟨z ++ [.char (chr ')')], E, by simpa using IsPrimary.paren hexpr⟩
  | @parenClose w t E hinner hclose ih =>
    exact ⟨[.char (chr ')')], E, .paren (hinner.sound trivial rfl).1⟩
  | @argInner name Args w t msg harg ih =>
    obtain ⟨z, E, hexpr⟩ := ih trivial herror
    exact ⟨z ++ [.char (chr ')')], [(w ++ z, E)], by simp, by simpa using hexpr, by simp [commaSeparated]⟩
  | @argSeparator name Args w t Arg harg hclose hcomma ih =>
    have hexpr : IsExpr prec w Arg := (harg.sound trivial rfl).1
    exact ⟨[.char (chr ')')], [(w, Arg)], by simp, by simpa using hexpr, rfl⟩
  | @argNext name Args w w' t Arg result harg hrest iharg ihrest =>
    have hexpr : IsExpr prec w Arg := (harg.sound trivial rfl).1
    obtain ⟨z, args, hne, hexprs, hw⟩ := ihrest trivial herror
    refine ⟨z, (w, Arg) :: args, by simp, List.forall_mem_cons.mpr ⟨hexpr, hexprs⟩, ?_⟩
    rw [List.map_cons, commaSeparated_cons (by simpa using hne)]
    simp [hw]
  | @operand ExprPrec LHS op w t msg hprec hprimary ih =>
    obtain ⟨z, E, hop⟩ := ih trivial herror
    have hpos := operator_pos (le_trans hentry hprec)
    exact ⟨z, [⟨op, w ++ z, E⟩], by simp, by simpa using hpos, by simpa using hop⟩
  | @reduce ExprPrec LHS RHS op w w' t result hprec hprimary hnext hrest ihprimary ihrest =>
    have hop : IsPrimary prec w RHS := (hprimary.sound trivial rfl).1
    have hpos := operator_pos (le_trans hentry hprec)
    obtain ⟨z, links, hw, hops, hoperands⟩ := ihrest hentry herror
    exact ⟨z, ⟨op, w, RHS⟩ :: links, by simp [hw], List.forall_mem_cons.mpr ⟨hpos, hops⟩,
      List.forall_mem_cons.mpr ⟨hop, hoperands⟩⟩
  | @nestedError ExprPrec LHS RHS op w w' t msg hprec hprimary hnext hnested ihprimary ihnested =>
    have hop : IsPrimary prec w RHS := (hprimary.sound trivial rfl).1
    have hpos := operator_pos (le_trans hentry hprec)
    obtain ⟨z, links, hw, hops, hoperands⟩ := ihnested (by simp only [Entry.Valid]; omega) herror
    exact ⟨z, ⟨op, w, RHS⟩ :: links, by simp [hw], List.forall_mem_cons.mpr ⟨hpos, hops⟩,
      List.forall_mem_cons.mpr ⟨hop, hoperands⟩⟩
  | @nested ExprPrec LHS RHS RHS' op w w' w'' t result hprec hprimary hnext hnested hrest ihprimary
      ihnested ihrest =>
    have hop : IsPrimary prec w RHS := (hprimary.sound trivial rfl).1
    have hpos := operator_pos (le_trans hentry hprec)
    obtain ⟨tight, rfl, htight, hinner, _⟩ := hnested.sound (by simp only [Entry.Valid]; omega) rfl
    obtain ⟨z, links, hw, hops, hoperands⟩ := ihrest hentry herror
    refine ⟨z, ⟨op, w, RHS⟩ :: (tight ++ links), by simp [hw], ?_, ?_⟩
    · refine List.forall_mem_cons.mpr ⟨hpos, List.forall_mem_append.mpr ⟨?_, hops⟩⟩
      intro x hx
      have := htight x hx
      omega
    · exact List.forall_mem_cons.mpr ⟨hop, List.forall_mem_append.mpr ⟨hinner, hoperands⟩⟩
  | exprInner hprimary ih =>
    obtain ⟨z, E, hop⟩ := ih trivial herror
    exact ⟨z, E, hop.expr⟩
  | expr hprimary hrest ihprimary ihrest =>
    obtain ⟨hfirst, _⟩ := hprimary.sound trivial rfl
    obtain ⟨z, links, hw, hops, hoperands⟩ := ihrest le_rfl herror
    exact ⟨z, _, by simpa [hw] using IsExpr.chain hfirst hops hoperands⟩

end accelerators.kaleidoscope
