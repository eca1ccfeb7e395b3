import Accelerators.Kaleidoscope.Runs.Returns
import Accelerators.Kaleidoscope.Grammar.Complete
import Accelerators.Kaleidoscope.Grammar.Sound

namespace accelerators.kaleidoscope

variable {σ V : Type} [TokenSource σ V] {prec : UInt8 → Int}

/-- The stream `ts` begins with the expression `w`, read with maximal munch,
    whose reference tree is `E`; the tokens after it are `rest`. -/
def BeginsWith (prec : UInt8 → Int) (ts w rest : List (Lexeme V)) (E : ExprAST V) : Prop :=
  ts = w ++ rest ∧ IsExpr prec w E ∧ MunchedBefore prec w (peek rest .tok_eof)

theorem ParseExpression_of_beginsWith (htable : OperatorTable prec) {s : Globals σ V}
    {ts w rest : List (Lexeme V)} {E : ExprAST V} (hat : s.At ts) {fuel : Nat}
    (hfuel : 3 * ts.length + 2 ≤ fuel) (h : BeginsWith prec ts w rest E) :
    Returns s rest (.ok E) (ParseExpression prec fuel s) := by
  obtain ⟨rfl, hexpr, hmunch⟩ := h
  simp only [List.length_append] at hfuel
  exact (hexpr.runs htable _ hmunch).returns s rest fuel hat rfl (by simp only [Entry.cost]; omega)

/-- Whatever the stream, the parser either returns the tree of a maximal
    expression at its front, or a null pointer. -/
theorem ParseExpression_returns (prec : UInt8 → Int) {s : Globals σ V} {ts : List (Lexeme V)} (hat : s.At ts)
    {fuel : Nat}
    (hfuel : 3 * ts.length + 2 ≤ fuel) :
    ∃ w rest result, ts = w ++ rest ∧ Runs prec .expression w (peek rest .tok_eof) result ∧
      Returns s rest result (ParseExpression prec fuel s) := by
  obtain ⟨w, rest, result, rfl, hrun⟩ := halts prec ts .expression trivial
  simp only [List.length_append] at hfuel
  exact ⟨w, rest, result, rfl, hrun,
    hrun.returns s rest fuel hat rfl (by simp only [Entry.cost]; omega)⟩

/-- `ParseExpression` succeeds exactly when the stream begins with an
    expression of the grammar. It then returns the reference tree and stops at
    the first token after the expression; otherwise it returns `nullptr`. -/
theorem ParseExpression_iff_beginsWith (htable : OperatorTable prec) {s : Globals σ V}
    {ts : List (Lexeme V)} (hat : s.At ts) (fuel : Nat) (hfuel : 3 * ts.length + 2 ≤ fuel) :
    (∀ E rest, (∃ s', ParseExpression prec fuel s = some (some E, s') ∧ s'.At rest) ↔
      ∃ w, BeginsWith prec ts w rest E) ∧
    ((∃ s', ParseExpression prec fuel s = some (none, s')) ↔
      ¬ ∃ w rest E, BeginsWith prec ts w rest E) := by
  refine ⟨fun E rest => ⟨?_, ?_⟩, ⟨?_, ?_⟩⟩
  · rintro ⟨s', hparse, hat'⟩
    obtain ⟨w, rest', result, hts, hrun, hret⟩ := ParseExpression_returns prec hat hfuel
    cases result with
    | error msg =>
      obtain ⟨s'', hout, _⟩ := hret
      rw [hparse] at hout
      cases hout
    | ok E' =>
      obtain ⟨s'', hout, hat'', _⟩ := hret
      rw [hparse] at hout
      cases hout
      obtain rfl := hat'.unique hat''
      exact ⟨w, hts, hrun.sound trivial rfl⟩
  · rintro ⟨w, hbegins⟩
    obtain ⟨s', hparse, hat', _⟩ := ParseExpression_of_beginsWith htable hat hfuel hbegins
    exact ⟨s', hparse, hat'⟩
  · rintro ⟨s', hparse⟩ ⟨w, rest, E, hbegins⟩
    obtain ⟨s'', hout, _⟩ := ParseExpression_of_beginsWith htable hat hfuel hbegins
    rw [hparse] at hout
    cases hout
  · intro hnone
    obtain ⟨w, rest, result, hts, hrun, hret⟩ := ParseExpression_returns prec hat hfuel
    cases result with
    | error msg =>
      obtain ⟨s', hout, _⟩ := hret
      exact ⟨s', hout⟩
    | ok E => exact absurd ⟨w, rest, E, hts, hrun.sound trivial rfl⟩ hnone

/-- `a * b + 1 ; c` begins with a sum, as the program finds out. -/
theorem beginsWith_sum : ∃ w, BeginsWith standardPrecedence
    [.identifier (str "a"), .char (chr '*'), .identifier (str "b"), .char (chr '+'), .number 1,
      .char (chr ';'), .identifier (str "c")] w [.char (chr ';'), .identifier (str "c")]
    (.BinaryExprAST (chr '+')
      (.BinaryExprAST (chr '*') (.VariableExprAST (str "a")) (.VariableExprAST (str "b")))
      (.NumberExprAST 1)) :=
  ((ParseExpression_iff_beginsWith operatorTable_standard (Globals.at_ofTokens 0 _) 23
    (by decide)).1 _ _).mp ⟨_, rfl, rfl, trivial, drains_list _ _ rfl⟩

end accelerators.kaleidoscope
