import Accelerators.Kaleidoscope.Fuel
import Accelerators.Kaleidoscope.TopLevel.Resync

namespace accelerators.kaleidoscope

variable {σ V : Type}

/-- The tokens `w` were read, and the next token is where the input stops being
    a beginning of a grammatical item. At the end of input the item is
    incomplete. -/
structure EarliestError (prec : UInt8 → Int) (w rest : List (Lexeme V)) : Prop where
  viable : ∃ z r, IsItem prec (w ++ z) r
  dead : ∀ x z r, x.token = peek rest .tok_eof → ¬ IsItem prec (w ++ x :: z) r
  incomplete : rest = [] → ∀ r, ¬ IsItem prec w r

theorem ItemRuns.earliestError {prec : UInt8 → Int} (htable : OperatorTable prec) (v : V)
    {w rest : List (Lexeme V)} {msg : String}
    (h : ItemRuns prec w (peek rest .tok_eof) (.error msg)) : EarliestError prec w rest where
  viable := h.viable rfl
  dead := fun x z r hx => h.dead htable v (x :: z) hx r
  incomplete := by
    rintro rfl r hitem
    exact h.dead htable v [] rfl r (by simpa using hitem)

section
variable [TokenSource σ V] {prec : UInt8 → Int} {s s' : Globals σ V} {ts w rest : List (Lexeme V)} {fuel more : Nat}

/-- What an iteration of `MainLoop` does from its `switch` on. A parsing function
    either returns an item and logs nothing, or it returns `nullptr` at the
    earliest token, has logged one message, and recovery skips that token. -/
inductive Handles (prec : UInt8 → Int) (s : Globals σ V) : Globals σ V → Prop where
  | semicolon (hcur : s.CurTok = .char (chr ';')) : Handles prec s (getNextToken s)
  | parsed {w rest : List (Lexeme V)} {r : Report V} {sEnd : Globals σ V} (hstart : StartsItem s.CurTok)
      (hat : s.At (w ++ rest))
      (hreturns : ∀ fuel, 3 * w.length + 2 ≤ fuel → ParseItem prec fuel s = some (some r, sEnd))
      (hat' : sEnd.At rest) (hsilent : sEnd.stderr = s.stderr) (hitem : IsItem prec w r) :
      Handles prec s (report r sEnd)
  | failed {w rest : List (Lexeme V)} {msg : String} {sEnd : Globals σ V} (hstart : StartsItem s.CurTok)
      (hat : s.At (w ++ rest))
      (hreturns : ∀ fuel, 3 * w.length + 2 ≤ fuel → ParseItem prec fuel s = some (none, sEnd))
      (hat' : sEnd.At rest) (honce : sEnd.stderr = s.stderr ++ [.LogError msg])
      (hearliest : EarliestError prec w rest) (hskipped : (getNextToken sEnd).At rest.tail)
      (hno_more : (getNextToken sEnd).stderr = sEnd.stderr) :
      Handles prec s (getNextToken sEnd)

/-- A run of `MainLoop` from one state to the one in which it returns. -/
inductive Loops (prec : UInt8 → Int) : Globals σ V → Globals σ V → Prop where
  | eof {s : Globals σ V} (heof : s.CurTok = .tok_eof) : Loops prec s (report (.prompt "ready >") s)
  | handles {s s' s'' : Globals σ V} (hcur : s.CurTok ≠ .tok_eof)
      (h : Handles prec (report (.prompt "ready >") s) s')
      (hloops : Loops prec s' s'') : Loops prec s s''

omit [TokenSource σ V] in
theorem Outcome.map_of_le {α β : Type} {f : α → β} {item item' : Outcome σ V α} {out : Ptr β × Globals σ V}
    (h : ∀ out, item = some out → item' = some out) (hout : Outcome.map f item = some out) :
    Outcome.map f item' = some out := by
  cases item with
  | none => cases hout
  | some parsed =>
    rw [h parsed rfl]
    exact hout

theorem ParseItem_of_le (hle : fuel ≤ more) {out : Ptr (Report V) × Globals σ V}
    (hout : ParseItem prec fuel s = some out) : ParseItem prec more s = some out := by
  rw [ParseItem] at hout ⊢
  split at hout
  · exact Outcome.map_of_le (fun out => ParseDefinition_of_le hle) hout
  · exact Outcome.map_of_le (fun out => ParsePrototype_of_le hle) hout
  · exact Outcome.map_of_le (fun out => ParseTopLevelExpr_of_le hle) hout

theorem ItemRuns.handles (htable : OperatorTable prec) {result : Except String (Report V)}
    (h : ItemRuns prec w (peek rest .tok_eof) result) (hat : s.At (w ++ rest)) :
    ∃ s', Handles prec s s' ∧ s'.At (recovered result rest) := by
  have hstart : StartsItem s.CurTok := by
    rw [hat.curTok, peek_append]
    exact h.starts
  have hreturns := h.returns s rest (3 * w.length + 2) hat rfl (Nat.le_refl _)
  cases result with
  | ok r =>
    obtain ⟨sEnd, hout, hat', herr⟩ := hreturns
    exact ⟨_, .parsed hstart hat (fun fuel hle => ParseItem_of_le hle hout) hat' herr (h.sound rfl), hat'.report r⟩
  | error msg =>
    obtain ⟨sEnd, hout, hat', herr⟩ := hreturns
    exact ⟨_, .failed hstart hat (fun fuel hle => ParseItem_of_le hle hout) hat' herr
      (h.earliestError htable s.NumVal) hat'.getNextToken rfl, hat'.getNextToken⟩

theorem Handles.mainLoopBody (h : Handles prec s s') (hat : s.At ts) (hfuel : 3 * ts.length + 2 ≤ fuel) :
    MainLoopBody prec fuel s = some s' := by
  have hle : ∀ w rest, s.At (w ++ rest) → 3 * w.length + 2 ≤ fuel := by
    intro w rest hat'
    rw [hat.unique hat', List.length_append] at hfuel
    omega
  cases h with
  | semicolon hcur => exact MainLoopBody_semicolon hcur fuel
  | parsed hstart hat' hreturns => exact MainLoopBody_reports hstart.2 (hreturns fuel (hle _ _ hat'))
  | failed hstart hat' hreturns => exact MainLoopBody_recovers hstart.2 (hreturns fuel (hle _ _ hat'))

/-- An iteration leaves fewer tokens than it found. -/
theorem exists_handles (htable : OperatorTable prec) (hat : s.At ts) (hcur : s.CurTok ≠ .tok_eof) :
    ∃ s' ts', Handles prec s s' ∧ s'.At ts' ∧ ts'.length < ts.length := by
  rw [hat.curTok] at hcur
  by_cases hsemicolon : peek ts .tok_eof = .char (chr ';')
  · obtain ⟨rest, rfl⟩ := exists_cons_of_peek hsemicolon
    exact ⟨_, rest, .semicolon hat.1, hat.next, Nat.lt_succ_self _⟩
  · obtain ⟨w, rest, result, rfl, hitem⟩ := item_halts prec ⟨hcur, hsemicolon⟩
    obtain ⟨s', hhandles, hat'⟩ := hitem.handles htable hat
    exact ⟨s', _, hhandles, hat', hitem.recovered_lt⟩

theorem exists_loops (htable : OperatorTable prec) (hat : s.At ts) :
    ∃ s', Loops prec s s' ∧ MainLoop prec (3 * ts.length + 3) s = some s' := by
  induction hlen : ts.length using Nat.strong_induction_on generalizing s ts with
  | _ n ih =>
    subst hlen
    by_cases heof : s.CurTok = .tok_eof
    · exact ⟨_, .eof heof, if_pos heof⟩
    · obtain ⟨s₁, ts₁, hhandles, hat₁, hlt⟩ := exists_handles htable (hat.report (.prompt "ready >")) heof
      obtain ⟨s', hloops, hloop⟩ := ih ts₁.length hlt hat₁ rfl
      have hbody := hhandles.mainLoopBody (hat.report _) (Nat.le_refl _)
      refine ⟨s', .handles heof hhandles hloops, ?_⟩
      rw [MainLoop]
      simp only [hbody]
      exact (if_neg heof).trans (MainLoop_of_le (by omega) hloop)

/-- Errors are found at the earliest token and reported once, whatever the
    tokens: this is what every iteration of `MainLoop` does until it returns. -/
theorem MainLoop_errors_at_earliest_token (hat : s.At ts) :
    ∃ s', Loops standardPrecedence s s' ∧
      ∀ fuel, 3 * ts.length + 3 ≤ fuel → MainLoop standardPrecedence fuel s = some s' := by
  obtain ⟨s', hloops, hloop⟩ := exists_loops operatorTable_standard hat
  exact ⟨s', hloops, fun fuel hfuel => MainLoop_of_le hfuel hloop⟩

/-- `def 7 x`: the definition has no name, and `x` is an expression again. -/
theorem MainLoop_errors_without_name : ∃ s',
    Loops standardPrecedence (Globals.ofTokens 0 [.defKeyword, .number 7, .identifier (str "x")]) s' ∧
    MainLoop standardPrecedence 12 (Globals.ofTokens 0 [.defKeyword, .number 7, .identifier (str "x")]) = some s' ∧
    s'.stderr = [.prompt "ready >", .LogError "Expected function name in prototype", .prompt "ready >",
      .toplevel ⟨⟨str "__anon_expr", []⟩, .VariableExprAST (str "x")⟩, .prompt "ready >"] := by
  obtain ⟨s', hloops, hloop⟩ := MainLoop_errors_at_earliest_token
    (Globals.at_ofTokens 0 [.defKeyword, .number 7, .identifier (str "x")])
  have hout := hloop 12 (by decide)
  refine ⟨s', hloops, hout, ?_⟩
  obtain rfl := Option.some.inj hout
  rfl

end

end accelerators.kaleidoscope
