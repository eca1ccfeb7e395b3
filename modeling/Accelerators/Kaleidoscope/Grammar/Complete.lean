import Accelerators.Kaleidoscope.Grammar
import Accelerators.Kaleidoscope.Runs

open operator_precedence

namespace accelerators.kaleidoscope

variable {V : Type} {prec : UInt8 → Int}

theorem OperatorTable.operator_ne {op : UInt8} (htable : OperatorTable prec)
    (hop : 0 < GetTokPrecedence prec (.char op)) :
    op ≠ chr '(' ∧ op ≠ chr ')' ∧ op ≠ chr ',' := by
  simp only [GetTokPrecedence] at hop
  split_ifs at hop with hascii hpos
  · omega
  · omega
  · exact (htable op (by omega)).2

/-- A closing parenthesis, a comma, and every token that is not a byte end a chain. -/
theorem OperatorTable.closes (htable : OperatorTable prec) {c : UInt8}
    (hc : c = chr '(' ∨ c = chr ')' ∨ c = chr ',') : GetTokPrecedence prec (.char c) < 0 := by
  by_contra hnot
  have hpos : 0 < GetTokPrecedence prec (.char c) := by
    simp only [GetTokPrecedence] at hnot ⊢
    split_ifs at hnot ⊢ <;> omega
  obtain ⟨h1, h2, h3⟩ := htable.operator_ne hpos
  rcases hc with rfl | rfl | rfl <;> contradiction

/-- A primary is read as such in front of every token that does not turn its
    last identifier into a call. -/
def ReadAs (prec : UInt8 → Int) (w : List (Lexeme V)) (E : ExprAST V) : Prop :=
  ∀ t, (EndsInIdentifier w → t ≠ .char (chr '(')) → Runs prec .primary w t (.ok E)

theorem peek_linkTokens_ne (htable : OperatorTable prec) {links : List (Link V)}
    (hops : ∀ x ∈ links, 0 < GetTokPrecedence prec (.char x.op)) {u : List (Lexeme V)} {t : Token}
    (hmunch : EndsInIdentifier (u ++ linkTokens links) → t ≠ .char (chr '('))
    (hu : EndsInIdentifier u) : peek (linkTokens links) t ≠ .char (chr '(') := by
  cases links with
  | nil => exact hmunch (by simpa using hu)
  | cons x xs =>
    have hne := (htable.operator_ne (hops x List.mem_cons_self)).1
    simpa [Lexeme.token] using hne

/-- The operators at the front that bind tighter than `bound`. -/
theorem exists_tight_prefix (prec : UInt8 → Int) (links : List (Link V)) (bound : Int) :
    ∃ tight rest : List (Link V), links = tight ++ rest ∧
      (∀ x ∈ tight, bound < GetTokPrecedence prec (.char x.op)) ∧
      ∀ x ∈ rest.head?, GetTokPrecedence prec (.char x.op) ≤ bound := by
  let tighter := fun x : Link V => decide (bound < GetTokPrecedence prec (.char x.op))
  refine ⟨links.takeWhile tighter, links.dropWhile tighter, List.takeWhile_append_dropWhile.symm, ?_, ?_⟩
  · intro x hx
    simpa [tighter] using List.all_eq_true.mp List.all_takeWhile x hx
  · intro x hx
    have hnot := List.head?_dropWhile_not tighter links
    rw [Option.mem_def] at hx
    simpa [hx, tighter] using hnot

/-- What follows an operator binds no tighter if neither the next link nor the
    token after the links does. -/
theorem peek_linkTokens_le {links : List (Link V)} {t : Token} {p : Int}
    (hlinks : ∀ y ∈ links.head?, GetTokPrecedence prec (.char y.op) ≤ p) (ht : GetTokPrecedence prec t ≤ p) :
    GetTokPrecedence prec (peek (linkTokens links) t) ≤ p := by
  cases links with
  | nil => exact ht
  | cons y ys => exact hlinks y rfl

/-- The loop with minimum precedence `ExprPrec` takes a whole chain of
    operators that bind at least so tightly, and adds its reference tree. -/
theorem runs_binOpRHS (htable : OperatorTable prec) (links : List (Link V))
    (hops : ∀ x ∈ links, 0 < GetTokPrecedence prec (.char x.op))
    (hread : ∀ x ∈ links, ReadAs prec x.tokens x.tree) {ExprPrec : Int}
    (hmin : ∀ x ∈ links, ExprPrec ≤ GetTokPrecedence prec (.char x.op)) {t : Token}
    (hstop : GetTokPrecedence prec t < ExprPrec)
    (hmunch : EndsInIdentifier (linkTokens links) → t ≠ .char (chr '(')) (LHS : ExprAST V) :
    Runs prec (.binOpRHS ExprPrec LHS) (linkTokens links) t (.ok (chainTree prec LHS links)) := by
  -- strong induction on the links: the tight ones after the first go to the nested call
  induction hlen : links.length using Nat.strong_induction_on generalizing links ExprPrec t LHS with
  | _ n ih =>
    cases links with
    | nil => simpa [chainTree] using Runs.stop hstop
    | cons x xs =>
      obtain ⟨-, hops'⟩ := List.forall_mem_cons.mp hops
      obtain ⟨hx, hread'⟩ := List.forall_mem_cons.mp hread
      obtain ⟨hle, hmin'⟩ := List.forall_mem_cons.mp hmin
      have hmunch' : EndsInIdentifier (x.tokens ++ linkTokens xs) → t ≠ .char (chr '(') :=
        fun h => hmunch (h.append [.char x.op])
      have hprimary := hx _ (peek_linkTokens_ne htable hops' hmunch')
      by_cases hnext : GetTokPrecedence prec (.char x.op) < GetTokPrecedence prec (peek (linkTokens xs) t)
      · obtain ⟨tight, rest, hxs, htight, hrest⟩ := exists_tight_prefix prec xs
          (GetTokPrecedence prec (.char x.op))
        subst hxs
        obtain ⟨hopsTight, hopsRest⟩ := List.forall_mem_append.mp hops'
        obtain ⟨hreadTight, hreadRest⟩ := List.forall_mem_append.mp hread'
        obtain ⟨-, hminRest⟩ := List.forall_mem_append.mp hmin'
        have hafter := peek_linkTokens_le hrest (hstop.le.trans hle)
        have hnested := ih tight.length (by simp only [← hlen, List.length_append, List.length_cons]; omega) tight
          hopsTight hreadTight (fun y hy => Int.add_one_le_of_lt (htight y hy)) (Int.lt_add_one_of_le hafter)
          (peek_linkTokens_ne htable hopsRest (fun h => hmunch' (by simpa using h.append x.tokens))) x.tree rfl
        have hloop := ih rest.length (by simp only [← hlen, List.length_append, List.length_cons]; omega) rest
          hopsRest hreadRest hminRest hstop
          (fun h => hmunch' (by simpa using h.append (x.tokens ++ linkTokens tight)))
          (.BinaryExprAST x.op LHS (chainTree prec x.tree tight)) rfl
        rw [chainTree_reduce LHS x htight hrest]
        simp only [linkTokens_append, peek_append] at hprimary hnext
        simpa using Runs.nested hle hprimary hnext hnested hloop
      · have hloop := ih xs.length (by simp [← hlen]) xs hops' hread' hmin' hstop
          (fun h => hmunch' (h.append x.tokens)) (.BinaryExprAST x.op LHS x.tree) rfl
        have hhead : ∀ y ∈ xs.head?, GetTokPrecedence prec (.char y.op) ≤ GetTokPrecedence prec (.char x.op) := by
          cases xs with
          | nil => simp
          | cons y ys => simpa [Lexeme.token] using hnext
        have htree := chainTree_reduce LHS x (List.forall_mem_nil _) hhead
        simp only [List.nil_append, chainTree_nil] at htree
        rw [htree]
        exact Runs.reduce hle hprimary (not_lt.mp hnext) hloop

/-- An argument list is read to its closing parenthesis. -/
theorem runs_arguments (htable : OperatorTable prec) (name : Str) (Args : List (ExprAST V))
    (args : List (List (Lexeme V) × ExprAST V)) (hne : args ≠ [])
    (hread : ∀ arg ∈ args, ∀ t, MunchedBefore prec arg.1 t → Runs prec .expression arg.1 t (.ok arg.2))
    (t : Token) :
    Runs prec (.arguments name Args) (commaSeparated (args.map Prod.fst) ++ [.char (chr ')')]) t
      (.ok (.CallExprAST name (Args ++ args.map Prod.snd))) := by
  induction args generalizing Args with
  | nil => contradiction
  | cons arg rest ih =>
    cases hrest : rest with
    | nil =>
      have harg := hread arg List.mem_cons_self _ ⟨htable.closes (.inr (.inl rfl)), fun _ => by decide⟩
      have hlast : Runs prec (.arguments name Args) (arg.1 ++ [.char (chr ')')]) t
          (.ok (.CallExprAST name (Args ++ [arg.2]))) := .argLast t harg
      simpa [commaSeparated] using hlast
    | cons next rest' =>
      have harg := hread arg List.mem_cons_self _ ⟨htable.closes (.inr (.inr rfl)), fun _ => by decide⟩
      have hargs := ih (Args ++ [arg.2]) (by simp [hrest]) (fun a ha => hread a (List.mem_cons_of_mem _ ha))
      rw [hrest] at hargs
      have hnext := Runs.argNext harg hargs
      rw [List.map_cons, commaSeparated_cons (by simp)]
      simpa using hnext

mutual

/-- Every primary of the grammar is read with its own tree. -/
theorem IsPrimary.runs (htable : OperatorTable prec) {w : List (Lexeme V)} {E : ExprAST V}
    (h : IsPrimary prec w E) : ReadAs prec w E := by
  match h with
  | .number v => exact fun t _ => .number v t
  | .identifier name => exact fun t ht => .var name (ht ⟨name, rfl⟩)
  | .call name args hargs =>
    intro t _
    have hread : args ≠ [] → Runs prec (.arguments name []) _ t _ := fun hne =>
      runs_arguments htable name [] args hne (fun a ha t hmunch => (hargs a ha).runs htable t hmunch) t
    cases args with
    | nil => exact .callEmpty name t
    | cons arg rest =>
      refine .call name ?_ (by simpa using hread (by simp))
      obtain ⟨t', hpeek⟩ := exists_peek_commaSeparated arg.1 (rest.map Prod.fst)
        (peek [.char (chr ')')] t)
      have hstart := (hargs arg List.mem_cons_self).peek_starts t'
      rw [List.map_cons, peek_append, hpeek]
      exact hstart.ne_close
  | .paren hinner =>
    intro t _
    exact .paren t (hinner.runs htable _ ⟨htable.closes (.inr (.inl rfl)), fun _ => by decide⟩)

/-- Every expression of the grammar is read with its reference tree, in front
    of any token at which it is maximal. -/
theorem IsExpr.runs (htable : OperatorTable prec) {w : List (Lexeme V)} {E : ExprAST V}
    (h : IsExpr prec w E) (t : Token) (hmunch : MunchedBefore prec w t) :
    Runs prec .expression w t (.ok E) := by
  match h with
  | @IsExpr.chain _ _ w operand links hfirst hops hoperands =>
    have hread : ∀ x ∈ links, ReadAs prec x.tokens x.tree := fun x hx => (hoperands x hx).runs htable
    have hrhs := runs_binOpRHS htable links hops hread
      (fun x hx => (hops x hx).le) hmunch.1 (fun h => hmunch.2 (h.append w)) operand
    exact .expr (hfirst.runs htable _ (peek_linkTokens_ne htable hops hmunch.2)) hrhs

end

end accelerators.kaleidoscope
