import Accelerators.Kaleidoscope.TopLevel.Runs
import Accelerators.Kaleidoscope.Grammar.Sound

namespace accelerators.kaleidoscope

variable {σ V : Type}

/-- The outcome with its item replaced by what the handler reports of it. -/
def Outcome.map {α β : Type} (f : α → β) : Outcome σ V α → Outcome σ V β
  | none => none
  | some (item, s) => some (Option.map f item, s)

theorem Returns.map [TokenSource σ V] {α β : Type} {s : Globals σ V} {rest : List (Lexeme V)}
    {result : Except String α} {out : Outcome σ V α} (h : Returns s rest result out) (f : α → β) :
    Returns s rest (result.map f) (Outcome.map f out) := by
  cases result <;> obtain ⟨s', rfl, hat, herr⟩ := h <;> exact ⟨s', rfl, hat, herr⟩

section
variable [TokenSource σ V] {prec : UInt8 → Int}

/-- The parsing function that `MainLoop` selects, with the report that its
    handler makes of a parsed item. -/
def ParseItem (prec : UInt8 → Int) (fuel : Nat) (s : Globals σ V) : Outcome σ V (Report V) :=
  match s.CurTok with
  | .tok_def => Outcome.map .definition (ParseDefinition prec fuel s)
  | Token.tok_extern => Outcome.map .externProto (ParseExtern fuel s)
  | _ => Outcome.map .toplevel (ParseTopLevelExpr prec fuel s)

theorem Handle_eq_map {α : Type} (parsed : α → Report V) (out : Outcome σ V α) :
    Handle parsed out = Handle id (Outcome.map parsed out) := by
  rcases out with _ | ⟨_ | _, _⟩ <;> rfl

theorem MainLoopBody_eq {s : Globals σ V} (hsemicolon : s.CurTok ≠ .char (chr ';')) (fuel : Nat) :
    MainLoopBody prec fuel s = Handle id (ParseItem prec fuel s) := by
  unfold MainLoopBody ParseItem
  cases hcur : s.CurTok with
  | tok_def => exact Handle_eq_map _ (ParseDefinition prec fuel s)
  | tok_extern => exact Handle_eq_map _ (ParseExtern fuel s)
  | tok_eof => exact Handle_eq_map _ (ParseTopLevelExpr prec fuel s)
  | tok_identifier => exact Handle_eq_map _ (ParseTopLevelExpr prec fuel s)
  | tok_number => exact Handle_eq_map _ (ParseTopLevelExpr prec fuel s)
  | char c =>
    simp only [← hcur, if_neg hsemicolon]
    exact Handle_eq_map _ (ParseTopLevelExpr prec fuel s)

theorem MainLoopBody_reports {s sEnd : Globals σ V} {r : Report V} {fuel : Nat}
    (hsemicolon : s.CurTok ≠ .char (chr ';')) (hout : ParseItem prec fuel s = some (some r, sEnd)) :
    MainLoopBody prec fuel s = some (report r sEnd) := by
  rw [MainLoopBody_eq hsemicolon, hout]
  rfl

theorem MainLoopBody_recovers {s sEnd : Globals σ V} {fuel : Nat}
    (hsemicolon : s.CurTok ≠ .char (chr ';')) (hout : ParseItem prec fuel s = some (none, sEnd)) :
    MainLoopBody prec fuel s = some (getNextToken sEnd) := by
  rw [MainLoopBody_eq hsemicolon, hout]
  rfl

theorem MainLoopBody_semicolon {s : Globals σ V} (hsemicolon : s.CurTok = .char (chr ';')) (fuel : Nat) :
    MainLoopBody prec fuel s = some (getNextToken s) := by
  simp [MainLoopBody, hsemicolon]

/-- Every run of an item is what the selected parsing function does. -/
theorem ItemRuns.returns {w : List (Lexeme V)} {t : Token} {result : Except String (Report V)}
    (h : ItemRuns prec w t result) (s : Globals σ V) (rest : List (Lexeme V)) (fuel : Nat)
    (hat : s.At (w ++ rest)) (ht : peek rest .tok_eof = t) (hfuel : 3 * w.length + 2 ≤ fuel) :
    Returns s rest result (ParseItem prec fuel s) := by
  cases h with
  | @proto w t msg hproto =>
    have hcur : s.CurTok = .tok_def := hat.1
    obtain ⟨s', hout, hat', herr⟩ := hproto.returns (getNextToken s) rest fuel hat.next ht
      (by simp only [List.length_cons] at hfuel; omega)
    exact ⟨s', by simp [ParseItem, hcur, ParseDefinition, hout, Outcome.map], hat', herr⟩
  | @definition w w' t Proto result hproto hbody =>
    have hcur : s.CurTok = .tok_def := hat.1
    simp only [List.length_cons, List.length_append] at hfuel
    obtain ⟨s', hout, hat', herr⟩ := hproto.returns (getNextToken s) (w' ++ rest) fuel
      (by simpa using hat.next) (by simp [ht]) (by omega)
    have hret := hbody.returns s' rest fuel hat' ht (by simp only [Entry.cost]; omega)
    have hfun : ParseItem prec fuel s =
        Outcome.map (fun E => .definition ⟨Proto, E⟩) (ParseExpression prec fuel s') := by
      simp only [ParseItem, hcur, ParseDefinition, hout]
      rcases ParseExpression prec fuel s' with _ | ⟨_ | _, _⟩ <;> rfl
    rw [hfun]
    exact (hret.of_stderr herr).map _
  | externItem hproto =>
    have hcur : s.CurTok = Token.tok_extern := hat.1
    have hret := hproto.returns (getNextToken s) rest fuel hat.next ht
      (by simp only [List.length_cons] at hfuel; omega)
    have hfun : ParseItem prec fuel s = Outcome.map .externProto (ParsePrototype fuel (getNextToken s)) := by
      simp only [ParseItem, hcur, ParseExtern]
    rw [hfun]
    exact (hret.map _).of_stderr rfl
  | @toplevel w t result hstart hdef hext hexpr =>
    have hcur : s.CurTok = peek w t := by rw [hat.curTok, peek_append, ht]
    have hret := hexpr.returns s rest fuel hat ht (by simp only [Entry.cost]; omega)
    have hfun : ParseItem prec fuel s =
        Outcome.map (fun E => .toplevel ⟨⟨str "__anon_expr", []⟩, E⟩) (ParseExpression prec fuel s) := by
      have htop : ParseItem prec fuel s = Outcome.map .toplevel (ParseTopLevelExpr prec fuel s) := by
        unfold ParseItem
        split <;> simp_all
      rw [htop]
      unfold ParseTopLevelExpr
      rcases ParseExpression prec fuel s with _ | ⟨_ | _, _⟩ <;> rfl
    rw [hfun]
    exact hret.map _

/-- The message about an item, and the tokens left after its recovery step. -/
def logged (result : Except String (Report V)) : Report V :=
  match result with
  | .ok r => r
  | .error msg => .LogError msg

def recovered (result : Except String (Report V)) (rest : List (Lexeme V)) : List (Lexeme V) :=
  match result with
  | .ok _ => rest
  | .error _ => rest.tail

theorem ItemRuns.starts {w : List (Lexeme V)} {t : Token} {result : Except String (Report V)}
    (h : ItemRuns prec w t result) : StartsItem (peek w t) := by
  cases h with
  | toplevel hstart => exact hstart
  | _ => simp [StartsItem, Lexeme.token]

/-- One iteration of `MainLoop` on an item. -/
theorem ItemRuns.mainLoopBody {w rest : List (Lexeme V)} {result : Except String (Report V)}
    (h : ItemRuns prec w (peek rest .tok_eof) result) (s : Globals σ V) (hat : s.At (w ++ rest))
    (fuel : Nat) (hfuel : 3 * w.length + 2 ≤ fuel) :
    ∃ s', MainLoopBody prec fuel s = some s' ∧ s'.At (recovered result rest) ∧
      s'.stderr = s.stderr ++ [logged result] := by
  have hcur : s.CurTok ≠ .char (chr ';') := by
    rw [hat.curTok, peek_append]
    exact h.starts.2
  have hret := h.returns s rest fuel hat rfl hfuel
  cases result with
  | ok r =>
    obtain ⟨s', hout, hat', herr⟩ := hret
    exact ⟨report r s', MainLoopBody_reports hcur hout, hat'.report r, by simp [herr, logged]⟩
  | error msg =>
    obtain ⟨s', hout, hat', herr⟩ := hret
    exact ⟨getNextToken s', MainLoopBody_recovers hcur hout, hat'.getNextToken, by simp [herr, logged]⟩

theorem Runs.ne_nil_of_ok {w : List (Lexeme V)} {t : Token} {E : ExprAST V}
    (h : Runs prec .expression w t (.ok E)) : w ≠ [] := by
  rintro rfl
  have hexpr : IsExpr prec [] E := (h.sound trivial rfl).1
  have h1 := hexpr.peek_starts .tok_eof
  simp [StartsPrimary] at h1

theorem ItemRuns.ne_nil_of_ok {w : List (Lexeme V)} {t : Token} {result : Except String (Report V)}
    (h : ItemRuns prec w t result) {r : Report V} (hok : result = .ok r) : w ≠ [] := by
  cases h with
  | @toplevel _ _ result _ _ _ hexpr =>
    cases result with
    | error msg => cases hok
    | ok E => exact hexpr.ne_nil_of_ok
  | _ => simp

/-- An item leaves fewer tokens than it found. -/
theorem ItemRuns.recovered_lt {w rest : List (Lexeme V)} {result : Except String (Report V)}
    (h : ItemRuns prec w (peek rest .tok_eof) result) :
    (recovered result rest).length < (w ++ rest).length := by
  rw [List.length_append]
  cases result with
  | ok r =>
    have hne := List.length_pos_iff.mpr (h.ne_nil_of_ok rfl)
    simp only [recovered]
    omega
  | error msg =>
    simp only [recovered, List.length_tail]
    have hstart := h.starts
    cases w with
    | nil =>
      cases rest with
      | nil => simp [StartsItem] at hstart
      | cons x xs => simp
    | cons x xs =>
      simp only [List.length_cons]
      omega

end

/-- `Session prec ts out`: on the tokens `ts` the iterations of `MainLoop`
    write `out` and come to the end of input. -/
inductive Session (prec : UInt8 → Int) : List (Lexeme V) → List (Report V) → Prop where
  | eof : Session prec [] [.prompt "ready >"]
  | semicolon {ts : List (Lexeme V)} {out : List (Report V)} (h : Session prec ts out) :
      Session prec (.char (chr ';') :: ts) (.prompt "ready >" :: out)
  | item {w rest : List (Lexeme V)} {result : Except String (Report V)} {out : List (Report V)}
      (hitem : ItemRuns prec w (peek rest .tok_eof) result) (h : Session prec (recovered result rest) out) :
      Session prec (w ++ rest) (.prompt "ready >" :: logged result :: out)

/-- The prompts among the messages, one for each time the loop looks at `CurTok`. -/
def prompts (out : List (Report V)) : Nat := out.countP Report.isPrompt

/-- What is logged and parsed, without the prompts. -/
def reports (out : List (Report V)) : List (Report V) := out.filter (fun r => !r.isPrompt)

theorem logged_not_prompt {prec : UInt8 → Int} {w : List (Lexeme V)} {t : Token}
    {result : Except String (Report V)} (h : ItemRuns prec w t result) :
    (logged result).isPrompt = false := by
  cases h with
  | @definition _ _ _ _ result | @toplevel _ _ result | @externItem _ _ result => cases result <;> rfl
  | proto => rfl

/-- Every finite token stream has a session. It runs no more iterations than
    there are tokens before it finds the end of input. -/
theorem exists_session (prec : UInt8 → Int) (ts : List (Lexeme V)) :
    ∃ out, Session prec ts out ∧ prompts out ≤ ts.length + 1 := by
  induction hlen : ts.length using Nat.strong_induction_on generalizing ts with
  | _ n ih =>
    subst hlen
    by_cases heof : peek ts .tok_eof = .tok_eof
    · cases ts with
      | nil => exact ⟨_, .eof, by simp [prompts, Report.isPrompt]⟩
      | cons x xs => cases x <;> cases heof
    by_cases hsemicolon : peek ts .tok_eof = .char (chr ';')
    · obtain ⟨rest, rfl⟩ := exists_cons_of_peek hsemicolon
      obtain ⟨out, hrest, hcount⟩ := ih rest.length (by simp) rest rfl
      exact ⟨_, .semicolon hrest, by simpa [prompts, List.countP_cons, Report.isPrompt] using hcount⟩
    obtain ⟨w, rest, result, rfl, hitem⟩ := item_halts prec ⟨heof, hsemicolon⟩
    have hlt := hitem.recovered_lt
    obtain ⟨out, hrest, hcount⟩ := ih _ hlt _ rfl
    refine ⟨_, .item hitem hrest, ?_⟩
    have hprompt : Report.isPrompt (.prompt "ready >" : Report V) = true := rfl
    simp only [prompts, List.countP_cons, logged_not_prompt hitem, hprompt, if_true,
      Bool.false_eq_true, if_false] at hcount ⊢
    omega

/-- Every session is what `MainLoop` does: it returns at the end of input and
    has written the messages of the session. -/
theorem Session.mainLoop [TokenSource σ V] {prec : UInt8 → Int} {ts : List (Lexeme V)}
    {out : List (Report V)} (h : Session prec ts out) (s : Globals σ V) (hat : s.At ts) (fuel : Nat)
    (hfuel : 3 * ts.length + 3 ≤ fuel) :
    ∃ s', MainLoop prec fuel s = some s' ∧ s'.At [] ∧ s'.stderr = s.stderr ++ out := by
  induction h generalizing s fuel with
  | eof =>
    obtain ⟨fuel, rfl⟩ : ∃ n, fuel = n + 1 := ⟨fuel - 1, by omega⟩
    have hcur : s.CurTok = .tok_eof := hat.1
    exact ⟨report (.prompt "ready >") s, by simp [MainLoop, hcur], hat.report _, rfl⟩
  | @semicolon ts out h ih =>
    simp only [List.length_cons] at hfuel
    obtain ⟨fuel, rfl⟩ : ∃ n, fuel = n + 1 := ⟨fuel - 1, by omega⟩
    have hcur : s.CurTok = .char (chr ';') := hat.1
    obtain ⟨s', hloop, hat', herr⟩ := ih (getNextToken (report (.prompt "ready >") s))
      (hat.report _).next fuel (by omega)
    have hbody : MainLoopBody prec fuel (report (.prompt "ready >") s) =
        some (getNextToken (report (.prompt "ready >") s)) := MainLoopBody_semicolon (by exact hcur) fuel
    exact ⟨s', by simp [MainLoop, hcur, hbody, hloop], hat', by simp [herr]⟩
  | @item w rest result out hitem h ih =>
    obtain ⟨fuel, rfl⟩ : ∃ n, fuel = n + 1 := ⟨fuel - 1, by omega⟩
    have hlt := hitem.recovered_lt
    have hcur : s.CurTok ≠ .tok_eof := by
      rw [hat.curTok, peek_append]
      exact hitem.starts.1
    obtain ⟨s', hbody, hat', herr⟩ := hitem.mainLoopBody (report (.prompt "ready >") s) (hat.report _)
      fuel (by simp only [List.length_append] at hfuel; omega)
    obtain ⟨s'', hloop, hat'', herr'⟩ := ih s' hat' fuel (by omega)
    exact ⟨s'', by simp [MainLoop, hcur, hbody, hloop], hat'', by simp [herr', herr]⟩

end accelerators.kaleidoscope
