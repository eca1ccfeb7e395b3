import Accelerators.Kaleidoscope.Runs.Returns
import Accelerators.Kaleidoscope.Runs.Total

namespace accelerators.kaleidoscope

variable {σ V : Type}

/-- `ProtoRuns w t result`: `ParsePrototype` consumes `w` and stops in front of
    a token of kind `t` with this result. -/
inductive ProtoRuns : List (Lexeme V) → Token → Except String PrototypeAST → Prop where
  | noName {t : Token} (hname : t ≠ .tok_identifier) :
      ProtoRuns [] t (.error "Expected function name in prototype")
  | noOpen (name : Str) {t : Token} (hopen : t ≠ .char (chr '(')) :
      ProtoRuns [.identifier name] t (.error "Expected '(' in prototype")
  | noClose (name : Str) (args : List Str) {t : Token} (harg : t ≠ .tok_identifier)
      (hclose : t ≠ .char (chr ')')) :
      ProtoRuns (.identifier name :: .char (chr '(') :: args.map .identifier) t
        (.error "Expected ')' in prototype")
  | proto (name : Str) (args : List Str) (t : Token) :
      ProtoRuns (.identifier name :: .char (chr '(') :: (args.map .identifier ++ [.char (chr ')')])) t
        (.ok ⟨name, args⟩)

/-- The first tokens of which `MainLoop` makes an item. -/
def StartsItem (t : Token) : Prop := t ≠ .tok_eof ∧ t ≠ .char (chr ';')

/-- `ItemRuns prec w t result`: one handler of `MainLoop` parses the item `w`
    in front of a token of kind `t`, with what it reports as the result. -/
inductive ItemRuns (prec : UInt8 → Int) :
    List (Lexeme V) → Token → Except String (Report V) → Prop where
  | proto {w : List (Lexeme V)} {t : Token} {msg : String} (hproto : ProtoRuns w t (.error msg)) :
      ItemRuns prec (.defKeyword :: w) t (.error msg)
  | definition {w w' : List (Lexeme V)} {t : Token} {Proto : PrototypeAST}
      {result : Except String (ExprAST V)} (hproto : ProtoRuns w (peek w' t) (.ok Proto))
      (hbody : Runs prec .expression w' t result) :
      ItemRuns prec (.defKeyword :: (w ++ w')) t (result.map fun E => .definition ⟨Proto, E⟩)
  | externItem {w : List (Lexeme V)} {t : Token} {result : Except String PrototypeAST}
      (hproto : ProtoRuns w t result) : ItemRuns prec (.externKeyword :: w) t (result.map .externProto)
  | toplevel {w : List (Lexeme V)} {t : Token} {result : Except String (ExprAST V)}
      (hstart : StartsItem (peek w t)) (hdef : peek w t ≠ .tok_def) (hext : peek w t ≠ Token.tok_extern)
      (hexpr : Runs prec .expression w t result) :
      ItemRuns prec w t (result.map fun E => .toplevel ⟨⟨str "__anon_expr", []⟩, E⟩)

theorem exists_identifiers (ts : List (Lexeme V)) :
    ∃ (args : List Str) (rest : List (Lexeme V)), ts = args.map .identifier ++ rest ∧
      peek rest .tok_eof ≠ .tok_identifier := by
  induction ts with
  | nil => exact ⟨[], [], rfl, by simp⟩
  | cons x xs ih =>
    cases x with
    | identifier name =>
      obtain ⟨args, rest, rfl, hrest⟩ := ih
      exact ⟨name :: args, rest, rfl, hrest⟩
    | _ => exact ⟨[], _, rfl, by simp [Lexeme.token]⟩

theorem proto_halts (ts : List (Lexeme V)) :
    ∃ w rest result, ts = w ++ rest ∧ ProtoRuns w (peek rest .tok_eof) result := by
  by_cases hname : peek ts .tok_eof = .tok_identifier
  · obtain ⟨name, after, rfl⟩ : ∃ name after, ts = .identifier name :: after := by
      cases ts with
      | nil => cases hname
      | cons x xs => cases x with
        | identifier name => exact ⟨name, xs, rfl⟩
        | _ => cases hname
    by_cases hopen : peek after .tok_eof = .char (chr '(')
    · obtain ⟨after, rfl⟩ := exists_cons_of_peek hopen
      obtain ⟨args, rest, rfl, harg⟩ := exists_identifiers after
      by_cases hclose : peek rest .tok_eof = .char (chr ')')
      · obtain ⟨rest, rfl⟩ := exists_cons_of_peek hclose
        exact ⟨_, rest, _, by simp, .proto name args _⟩
      · exact ⟨_, rest, _, rfl, .noClose name args harg hclose⟩
    · exact ⟨[.identifier name], after, _, rfl, .noOpen name hopen⟩
  · exact ⟨[], ts, _, rfl, .noName hname⟩

/-- Every item comes to an end, whether it is grammatical or not. -/
theorem item_halts (prec : UInt8 → Int) {ts : List (Lexeme V)} (hstart : StartsItem (peek ts .tok_eof)) :
    ∃ w rest result, ts = w ++ rest ∧ ItemRuns prec w (peek rest .tok_eof) result := by
  by_cases hdef : peek ts .tok_eof = .tok_def
  · obtain ⟨after, rfl⟩ : ∃ after, ts = .defKeyword :: after := by
      cases ts with
      | nil => cases hdef
      | cons x xs => cases x <;> first | exact ⟨xs, rfl⟩ | cases hdef
    obtain ⟨w, rest, result, rfl, hproto⟩ := proto_halts after
    cases result with
    | error msg => exact ⟨_, rest, _, rfl, .proto hproto⟩
    | ok Proto =>
      obtain ⟨w', rest, result, rfl, hbody⟩ := halts prec rest .expression trivial
      rw [peek_append] at hproto
      exact ⟨_, rest, _, by simp, .definition hproto hbody⟩
  · by_cases hext : peek ts .tok_eof = Token.tok_extern
    · obtain ⟨after, rfl⟩ : ∃ after, ts = .externKeyword :: after := by
        cases ts with
        | nil => cases hext
        | cons x xs => cases x <;> first | exact ⟨xs, rfl⟩ | cases hext
      obtain ⟨w, rest, result, rfl, hproto⟩ := proto_halts after
      exact ⟨_, rest, _, rfl, .externItem hproto⟩
    · obtain ⟨w, rest, result, rfl, hexpr⟩ := halts prec ts .expression trivial
      rw [peek_append] at hstart hdef hext
      exact ⟨w, rest, _, rfl, .toplevel hstart hdef hext hexpr⟩

section
variable [TokenSource σ V] {prec : UInt8 → Int}

theorem ParseArgNames_spec (args : List Str) {rest : List (Lexeme V)} {x : Lexeme V}
    (hrest : peek rest .tok_eof ≠ .tok_identifier) (ArgNames : List Str) (s : Globals σ V)
    (hat : s.At (x :: (args.map .identifier ++ rest))) (fuel : Nat) (hfuel : args.length + 1 ≤ fuel) :
    ∃ s', ParseArgNames fuel ArgNames s = some (ArgNames ++ args, s') ∧ s'.At rest ∧
      s'.stderr = s.stderr := by
  induction args generalizing ArgNames s x fuel with
  | nil =>
    obtain ⟨fuel, rfl⟩ : ∃ n, fuel = n + 1 := ⟨fuel - 1, by simp at hfuel; omega⟩
    have hcur : (getNextToken s).CurTok ≠ .tok_identifier := by rw [hat.next.curTok]; exact hrest
    exact ⟨getNextToken s, by simp [ParseArgNames, hcur], hat.next, rfl⟩
  | cons arg args ih =>
    simp only [List.length_cons] at hfuel
    obtain ⟨fuel, rfl⟩ : ∃ n, fuel = n + 1 := ⟨fuel - 1, by omega⟩
    have hcur : (getNextToken s).CurTok = .tok_identifier := hat.next.1
    have hname : (getNextToken s).IdentifierStr = arg := hat.next.2.1
    obtain ⟨s', hloop, hat', herr⟩ := ih (ArgNames ++ [arg]) (getNextToken s) hat.next fuel
      (by omega)
    exact ⟨s', by simpa [ParseArgNames, hcur, hname] using hloop, hat', herr⟩

theorem ProtoRuns.returns {w : List (Lexeme V)} {t : Token} {result : Except String PrototypeAST}
    (h : ProtoRuns w t result) (s : Globals σ V) (rest : List (Lexeme V)) (fuel : Nat)
    (hat : s.At (w ++ rest)) (ht : peek rest .tok_eof = t) (hfuel : w.length + 1 ≤ fuel) :
    Returns s rest result (ParsePrototype fuel s) := by
  cases h with
  | noName hname =>
    have hcur : s.CurTok ≠ .tok_identifier := by rwa [hat.curTok, List.nil_append, ht]
    have hfun : ParsePrototype fuel s = some (LogError "Expected function name in prototype" s) := by
      simp [ParsePrototype, hcur]
    rw [hfun]
    exact returns_logError _ hat rfl
  | noOpen name hopen =>
    have hcur : s.CurTok = .tok_identifier := hat.1
    have hcur' : (getNextToken s).CurTok ≠ .char (chr '(') := by
      rw [hat.next.curTok]
      exact ht ▸ hopen
    have hfun : ParsePrototype fuel s =
        some (LogError "Expected '(' in prototype" (getNextToken s)) := by
      simp [ParsePrototype, hcur, hcur']
    rw [hfun]
    exact returns_logError _ hat.next rfl
  | noClose name args harg hclose =>
    have hcur : s.CurTok = .tok_identifier := hat.1
    have hcur' : (getNextToken s).CurTok = .char (chr '(') := hat.next.1
    obtain ⟨s', hloop, hat', herr⟩ := ParseArgNames_spec args (by rwa [ht]) [] (getNextToken s)
      hat.next fuel (by simp at hfuel; omega)
    have hstop : s'.CurTok ≠ .char (chr ')') := by rwa [hat'.curTok, ht]
    have hfun : ParsePrototype fuel s = some (LogError "Expected ')' in prototype" s') := by
      simp [ParsePrototype, hcur, hcur', hloop, hstop]
    rw [hfun]
    exact returns_logError _ hat' herr
  | proto name args =>
    have hcur : s.CurTok = .tok_identifier := hat.1
    have hname : s.IdentifierStr = name := hat.2.1
    have hcur' : (getNextToken s).CurTok = .char (chr '(') := hat.next.1
    have hargs : (getNextToken s).At
        (.char (chr '(') :: (args.map .identifier ++ .char (chr ')') :: rest)) := by
      simpa using hat.next
    obtain ⟨s', hloop, hat', herr⟩ := ParseArgNames_spec args (by simp [Lexeme.token]) []
      (getNextToken s) hargs fuel (by simp at hfuel; omega)
    have hstop : s'.CurTok = .char (chr ')') := hat'.1
    exact ⟨getNextToken s', by simp [ParsePrototype, hcur, hcur', hloop, hstop, hname], hat'.next, herr⟩

end

end accelerators.kaleidoscope
