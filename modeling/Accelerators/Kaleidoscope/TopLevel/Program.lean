import Mathlib.Data.List.Chain
import Accelerators.Kaleidoscope.TopLevel.Resync

namespace accelerators.kaleidoscope

variable {σ V : Type} {prec : UInt8 → Int}

/-- An item as it is written in a program: its tokens, what `MainLoop` should
    report of it, and the number of semicolons after it. -/
structure WrittenItem (V : Type) where
  tokens : List (Lexeme V)
  item : Report V
  semicolons : Nat

def semicolonTokens (n : Nat) : List (Lexeme V) := List.replicate n (.char (chr ';'))

/-- A program that starts with `leading` semicolons. -/
def programTokens (leading : Nat) (items : List (WrittenItem V)) : List (Lexeme V) :=
  semicolonTokens leading ++ items.flatMap fun x => x.tokens ++ semicolonTokens x.semicolons

/-- With no semicolon between two items, the first does not end in an
    identifier when the second begins with a parenthesis. -/
def KeptApart (x y : WrittenItem V) : Prop :=
  x.semicolons = 0 → EndsInIdentifier x.tokens → peek y.tokens .tok_eof ≠ .char (chr '(')

theorem IsItem.peek_starts {w : List (Lexeme V)} {r : Report V} (h : IsItem prec w r) (t : Token) :
    peek w t = peek w .tok_eof ∧
      (peek w t = .tok_def ∨ peek w t = Token.tok_extern ∨ StartsPrimary (peek w t)) := by
  cases h with
  | definition Proto hbody => exact ⟨rfl, .inl rfl⟩
  | externItem Proto => exact ⟨rfl, .inr (.inl rfl)⟩
  | toplevel hexpr =>
    refine ⟨?_, .inr (.inr (hexpr.peek_starts t))⟩
    cases w with
    | nil => exact absurd (hexpr.peek_starts .tok_eof) (by simp [StartsPrimary])
    | cons x xs => rfl

/-- No operator begins an item. -/
theorem OperatorTable.start_not_operator (htable : OperatorTable prec) {t : Token}
    (h : t = .tok_def ∨ t = Token.tok_extern ∨ StartsPrimary t) : GetTokPrecedence prec t < 0 := by
  obtain rfl | rfl | rfl | rfl | rfl := h
  · simp [GetTokPrecedence]
  · simp [GetTokPrecedence]
  · simp [GetTokPrecedence]
  · simp [GetTokPrecedence]
  · exact htable.closes (.inl rfl)

theorem Session.semicolons {ts : List (Lexeme V)} {out : List (Report V)} (h : Session prec ts out) (n : Nat) :
    ∃ out', Session prec (semicolonTokens n ++ ts) out' ∧ reports out' = reports out := by
  induction n with
  | zero => exact ⟨out, h, rfl⟩
  | succ n ih =>
    obtain ⟨out', hout, hreports⟩ := ih
    exact ⟨_, .semicolon hout, by simpa using hreports⟩

/-- The token after an item of a program ends it. -/
theorem KeptApart.munched (htable : OperatorTable prec) (hc : Foreign prec (chr ';'))
    {x : WrittenItem V} {rest : List (WrittenItem V)} (hitems : ∀ y ∈ rest, IsItem prec y.tokens y.item)
    (hapart : ∀ y ∈ rest.head?, KeptApart x y) :
    MunchedBefore prec x.tokens
      (peek (semicolonTokens x.semicolons ++ programTokens 0 rest) .tok_eof) := by
  cases hn : x.semicolons with
  | succ n => exact ⟨hc.1, fun _ => show Token.char (chr ';') ≠ .char (chr '(') by decide⟩
  | zero =>
    cases rest with
    | nil => exact munchedBefore_eof _
    | cons y ys =>
      have hy := hitems y List.mem_cons_self
      have hpeek : peek (semicolonTokens 0 ++ programTokens 0 (y :: ys)) .tok_eof =
          peek y.tokens .tok_eof := by
        simp only [semicolonTokens, programTokens, List.replicate_zero, List.nil_append,
          List.flatMap_cons, List.append_assoc]
        rw [peek_append]
        exact (hy.peek_starts _).1
      rw [hpeek]
      exact ⟨htable.start_not_operator (hy.peek_starts _).2, hapart y rfl hn⟩

/-- A well-formed program has a session that reports its items in order. -/
theorem exists_program_session (htable : OperatorTable prec) (hc : Foreign prec (chr ';'))
    (items : List (WrittenItem V)) (hitems : ∀ x ∈ items, IsItem prec x.tokens x.item)
    (hapart : items.IsChain KeptApart) (leading : Nat) :
    ∃ out, Session prec (programTokens leading items) out ∧
      reports out = items.map WrittenItem.item := by
  induction items generalizing leading with
  | nil =>
    obtain ⟨out, hout, hreports⟩ := (Session.eof : Session prec ([] : List (Lexeme V)) _).semicolons leading
    exact ⟨out, by simpa [programTokens] using hout, hreports⟩
  | cons x rest ih =>
    obtain ⟨hx, hrest⟩ := List.forall_mem_cons.mp hitems
    obtain ⟨hnext, htail⟩ := List.isChain_cons.mp hapart
    obtain ⟨out, hout, hreports⟩ := ih hrest htail 0
    obtain ⟨out', hout', hreports'⟩ := hout.semicolons x.semicolons
    have hitem := hx.runs htable _ (KeptApart.munched htable hc hrest hnext)
    obtain ⟨out'', hout'', hreports''⟩ := (Session.item hitem hout').semicolons leading
    refine ⟨out'', ?_, ?_⟩
    · simpa [programTokens, semicolonTokens] using hout''
    · rw [hreports'', reports_prompt, reports_logged hitem, hreports', hreports]
      rfl

/-- `MainLoop` on a well-formed program reports every item with its own
    prototype and body, in order and once, logs no error, and returns at the
    end of input. -/
theorem MainLoop_reports_program [TokenSource σ V] (items : List (WrittenItem V))
    (hitems : ∀ x ∈ items, IsItem standardPrecedence x.tokens x.item)
    (hapart : items.IsChain KeptApart) (leading : Nat) {s : Globals σ V}
    (hat : s.At (programTokens leading items)) (fuel : Nat)
    (hfuel : 3 * (programTokens leading items).length + 3 ≤ fuel) :
    ∃ s' out, MainLoop standardPrecedence fuel s = some s' ∧ s'.CurTok = .tok_eof ∧
      s'.stderr = s.stderr ++ out ∧ reports out = items.map WrittenItem.item := by
  obtain ⟨out, hsession, hreports⟩ := exists_program_session operatorTable_standard foreign_semicolon
    items hitems hapart leading
  obtain ⟨s', hloop, hat', herr⟩ := hsession.mainLoop s hat fuel hfuel
  exact ⟨s', out, hloop, hat'.1, herr, hreports⟩

/-- `7 extern f()`, with no semicolon between the two items. -/
theorem MainLoop_reports_two_items : ∃ s' out,
    MainLoop standardPrecedence 18 (Globals.ofTokens 0 [.number 7, .externKeyword, .identifier (str "f"),
      .char (chr '('), .char (chr ')')]) = some s' ∧ s'.CurTok = .tok_eof ∧ s'.stderr = out ∧
    reports out = [.toplevel ⟨⟨str "__anon_expr", []⟩, .NumberExprAST 7⟩, .externProto ⟨str "f", []⟩] :=
  MainLoop_reports_program
    [⟨[.number 7], .toplevel ⟨⟨str "__anon_expr", []⟩, .NumberExprAST 7⟩, 0⟩,
      ⟨.externKeyword :: protoTokens ⟨str "f", []⟩, .externProto ⟨str "f", []⟩, 0⟩]
    (List.forall_mem_cons.mpr ⟨.toplevel (IsPrimary.number 7).expr,
      List.forall_mem_singleton.mpr (.externItem _)⟩)
    (by simp [KeptApart, Lexeme.token]) 0 (Globals.at_ofTokens 0 _) 18 (by decide)

end accelerators.kaleidoscope
