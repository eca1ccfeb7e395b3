import Accelerators.Kaleidoscope.Printer
import Accelerators.Kaleidoscope.Termination
import Accelerators.Kaleidoscope.TopLevel.Program

namespace accelerators.kaleidoscope

variable {V : Type} {strtod : Str → V} {zero : V} {input input' : List UInt8} {ts ts' : List (Lexeme Str)}
  {out : List (Report V)} {fuel : Nat}

/-- `main` writes what the session on the tokens of its input says. -/
theorem main_of_session (hlexes : Lexes input ts)
    (hsession : Session standardPrecedence (ts.map (Lexeme.convert strtod)) out) (hfuel : 3 * ts.length + 3 ≤ fuel) :
    ∃ s, main fuel (Globals.start strtod zero input) = some s ∧ s.CurTok = .tok_eof ∧
      s.stderr = .prompt "ready> " :: out := by
  have hdrains : Drains (Globals.start strtod zero input).toLexical (ts.map (Lexeme.convert strtod)) :=
    (Lexes.space (by decide) hlexes).drains _ rfl
  obtain ⟨s, hloop, hat, herr⟩ := hsession.mainLoop _ (hdrains.getNextToken.report (.prompt "ready> ")) fuel
    (by rwa [List.length_map])
  exact ⟨s, hloop, hat.1, herr⟩

/-- Two inputs with the same tokens, however these are laid out with whitespace
    and comments and whatever the number texts are that stand for a number, get
    the same messages. -/
theorem main_ignores_layout (strtod : Str → V) (zero : V) (hlexes : Lexes input ts) (hlexes' : Lexes input' ts')
    (hsame : ts.map (Lexeme.convert strtod) = ts'.map (Lexeme.convert strtod)) :
    ∃ out, ∀ fuel, 3 * ts.length + 3 ≤ fuel →
      (∃ s, main fuel (Globals.start strtod zero input) = some s ∧ s.CurTok = .tok_eof ∧ s.stderr = out) ∧
      ∃ s, main fuel (Globals.start strtod zero input') = some s ∧ s.CurTok = .tok_eof ∧ s.stderr = out := by
  obtain ⟨out, hsession, -⟩ := exists_session standardPrecedence (ts.map (Lexeme.convert strtod))
  have hlength : ts.length = ts'.length := by
    have hmapped := congrArg List.length hsame
    rwa [List.length_map, List.length_map] at hmapped
  exact ⟨_, fun fuel hfuel => ⟨main_of_session hlexes hsession hfuel,
    main_of_session hlexes' (hsame ▸ hsession) (hlength ▸ hfuel)⟩⟩

/-- `f(1)` with and without a space and a comment. -/
theorem main_ignores_comment : ∃ out, ∀ fuel, 15 ≤ fuel →
    (∃ s, main fuel (Globals.start id [] (str "f(1)")) = some s ∧ s.CurTok = .tok_eof ∧ s.stderr = out) ∧
      ∃ s, main fuel (Globals.start id [] (str "f (1#g(2)\n)")) = some s ∧ s.CurTok = .tok_eof ∧
        s.stderr = out := by
  have hclose : Lexes [chr ')'] [.char (chr ')')] :=
    .char (by decide) (by decide) (by decide) (by decide) .nil
  have hcomment : Lexes (str "#g(2)\n)") [.char (chr ')')] :=
    @Lexes.comment (str "g(2)") (str ")") (chr '\n') _ (List.all_eq_true.mp (by decide)) (by decide)
      (.space (by decide) hclose)
  have hone : ∀ c rest, ¬ isnumber c → Lexes (c :: rest) [.char (chr ')')] →
      Lexes (chr '(' :: chr '1' :: c :: rest) [.char (chr '('), .number (str "1"), .char (chr ')')] := by
    intro c rest hc h
    have hhead : ∀ b ∈ (c :: rest).head?, ¬ isnumber b := by simpa using hc
    have hnumber := Lexes.number (by decide : isnumber (chr '1')) (List.forall_mem_nil _) hhead h
    exact .char (by decide) (by decide) (by decide) (by decide) hnumber
  have hcall : ∀ c rest, ¬ isalnum c → Lexes (c :: rest) [.char (chr '('), .number (str "1"), .char (chr ')')] →
      Lexes (chr 'f' :: c :: rest) [.identifier (str "f"), .char (chr '('), .number (str "1"), .char (chr ')')] := by
    intro c rest hc h
    have hhead : ∀ b ∈ (c :: rest).head?, ¬ isalnum b := by simpa using hc
    exact Lexes.word (by decide : isalpha (chr 'f')) (List.forall_mem_nil _) hhead h
  exact main_ignores_layout id [] (hcall _ _ (by decide) (hone _ _ (by decide) hclose))
    (hcall _ _ (by decide) (.space (by decide) (hone _ _ (by decide) hcomment))) rfl

/-- An item of a program. -/
inductive Item (V : Type) where
  | definition (Proto : PrototypeAST) (Body : ExprAST V)
  | externItem (Proto : PrototypeAST)
  | toplevel (E : ExprAST V)

namespace Item

def tokens : Item Str → List (Lexeme Str)
  | .definition Proto Body => .defKeyword :: (protoTokens Proto ++ printExpr standardPrecedence 0 Body)
  | .externItem Proto => .externKeyword :: protoTokens Proto
  | .toplevel E => printExpr standardPrecedence 0 E

def report (strtod : Str → V) : Item Str → Report V
  | .definition Proto Body => .definition ⟨Proto, Body.convert strtod⟩
  | .externItem Proto => .externProto Proto
  | .toplevel E => .toplevel ⟨⟨str "__anon_expr", []⟩, E.convert strtod⟩

end Item

/-- The names of a prototype are identifiers. -/
def PrototypeAST.Writable (Proto : PrototypeAST) : Prop :=
  ∀ name ∈ Proto.Name :: Proto.Args, kaleidoscope.Writable (.identifier name)

def Item.Writable : Item Str → Prop
  | .definition Proto Body => Proto.Writable ∧ Body.Writable standardPrecedence
  | .externItem Proto => Proto.Writable
  | .toplevel E => E.Writable standardPrecedence

/-- Tokens with a space after each. -/
def text (tokens : List (Lexeme Str)) : List UInt8 := tokens.flatMap fun x => x.text ++ [chr ' ']

/-- A program with a semicolon after every item. -/
def programText (items : List (Item Str)) : List UInt8 :=
  text (items.flatMap fun x => x.tokens ++ [.char (chr ';')])

theorem lexes_text (hwritable : ∀ x ∈ ts, Writable x) : Lexes (text ts) ts := by
  have hapart : (ts.map fun x => (⟨x, [chr ' ']⟩ : Written)).IsChain KeepsApart := by
    refine (List.pairwise_map.mpr (List.pairwise_of_forall fun x y => ?_)).isChain
    rintro ⟨⟩
  have hlexes := lexes_rendered (.inl rfl) _ (by simpa using hwritable)
    (by simpa using fun _ _ => Separator.space (by decide) .nil) hapart
  simpa [render, text, List.flatMap_map, Function.comp_def] using hlexes

theorem writable_of_operator (c : UInt8) (hop : 0 < GetTokPrecedence standardPrecedence (.char c)) :
    Writable (.char c) := by
  simp only [GetTokPrecedence, standardPrecedence] at hop
  split_ifs at hop with h128 hle hlt hplus hminus htimes
  all_goals first | (subst c; decide) | simp at hop

theorem writable_protoTokens {Proto : PrototypeAST} (h : Proto.Writable) : ∀ x ∈ protoTokens Proto, Writable x := by
  intro x hx
  simp only [protoTokens, List.mem_cons, List.mem_append, List.mem_map, List.not_mem_nil, or_false] at hx
  obtain rfl | rfl | ⟨name, hname, rfl⟩ | rfl := hx
  · exact h _ List.mem_cons_self
  · decide
  · exact h name (List.mem_cons_of_mem _ hname)
  · decide

theorem Item.Writable.tokens {x : Item Str} (h : x.Writable) : ∀ t ∈ x.tokens, kaleidoscope.Writable t := by
  intro t ht
  cases x with
  | definition Proto Body =>
    rw [Item.tokens, List.mem_cons, List.mem_append] at ht
    obtain rfl | ht | ht := ht
    · trivial
    · exact writable_protoTokens h.1 t ht
    · exact h.2.tokens writable_of_operator 0 t ht
  | externItem Proto =>
    obtain rfl | ht := List.mem_cons.mp ht
    · trivial
    · exact writable_protoTokens h t ht
  | toplevel E => exact ExprAST.Writable.tokens writable_of_operator h 0 t ht

/-- The tokens of an item are grammatical, and stand for that item. -/
theorem Item.Writable.isItem {x : Item Str} (h : x.Writable) (strtod : Str → V) :
    IsItem standardPrecedence (x.tokens.map (Lexeme.convert strtod)) (x.report strtod) := by
  have hproto : ∀ Proto : PrototypeAST,
      (protoTokens Proto).map (Lexeme.convert strtod) = protoTokens Proto := by
    intro Proto
    simp [protoTokens, Lexeme.convert, Function.comp_def]
  cases x with
  | definition Proto Body =>
    have hitem := IsItem.definition Proto (h.2.chained strtod 0).isExpr
    simpa [Item.tokens, Item.report, Lexeme.convert, hproto] using hitem
  | externItem Proto =>
    have hitem : IsItem standardPrecedence (.externKeyword :: protoTokens Proto : List (Lexeme V)) _ :=
      .externItem Proto
    simpa [Item.tokens, Item.report, Lexeme.convert, hproto] using hitem
  | toplevel E => exact .toplevel (ExprAST.Writable.chained h strtod 0).isExpr

theorem length_le_length_text (ts : List (Lexeme Str)) : ts.length ≤ (text ts).length := by
  induction ts with
  | nil => simp
  | cons x ts ih =>
    rw [text, List.flatMap_cons, List.length_append, List.length_append, List.length_cons]
    rw [text] at ih
    simp only [List.length_singleton]
    omega

/-- `main` reads back every program that is written with as few parentheses as
    the precedences allow: it reports the items in order, each with its own
    prototype and body, and logs no error. -/
theorem main_reads_programText (strtod : Str → V) (zero : V) (items : List (Item Str))
    (hwritable : ∀ x ∈ items, x.Writable) (fuel : Nat) (hfuel : 3 * (programText items).length + 3 ≤ fuel) :
    ∃ s out, main fuel (Globals.start strtod zero (programText items)) = some s ∧ s.CurTok = .tok_eof ∧
      s.stderr = .prompt "ready> " :: out ∧ reports out = items.map (Item.report strtod) := by
  let written (x : Item Str) : WrittenItem V := ⟨x.tokens.map (Lexeme.convert strtod), x.report strtod, 1⟩
  have hitems : ∀ y ∈ items.map written, IsItem standardPrecedence y.tokens y.item := by
    intro y hy
    obtain ⟨x, hx, rfl⟩ := List.mem_map.mp hy
    exact (hwritable x hx).isItem strtod
  have hapart : (items.map written).IsChain KeptApart := by
    refine (List.pairwise_map.mpr (List.pairwise_of_forall fun x y => ?_)).isChain
    rintro ⟨⟩
  obtain ⟨out, hsession, hreports⟩ := exists_program_session operatorTable_standard foreign_semicolon
    (items.map written) hitems hapart 0
  have htokens : programTokens 0 (items.map written) =
      (items.flatMap fun x => x.tokens ++ [.char (chr ';')]).map (Lexeme.convert strtod) := by
    simp [programTokens, semicolonTokens, written, List.flatMap_map, List.map_flatMap, Lexeme.convert]
  have hlexes : Lexes (programText items) (items.flatMap fun x => x.tokens ++ [.char (chr ';')]) := by
    refine lexes_text fun t ht => ?_
    obtain ⟨x, hx, ht⟩ := List.mem_flatMap.mp ht
    obtain ht | ht := List.mem_append.mp ht
    · exact (hwritable x hx).tokens t ht
    · obtain rfl := List.mem_singleton.mp ht
      decide
  have hlength := length_le_length_text (items.flatMap fun x => x.tokens ++ [.char (chr ';')])
  rw [programText] at hfuel
  have hbound : 3 * (items.flatMap fun x => x.tokens ++ [.char (chr ';')]).length + 3 ≤ fuel := by omega
  obtain ⟨s, hmain, heof, herr⟩ := main_of_session hlexes (htokens ▸ hsession) hbound
  exact ⟨s, out, hmain, heof, herr, by rw [hreports, List.map_map]; rfl⟩

/-- `x - (y - 2) * 3` and a declaration. -/
def twoItems : List (Item Str) :=
  [.toplevel (.BinaryExprAST (chr '-') (.VariableExprAST (str "x"))
    (.BinaryExprAST (chr '*') (.BinaryExprAST (chr '-') (.VariableExprAST (str "y")) (.NumberExprAST (str "2")))
      (.NumberExprAST (str "3")))), .externItem ⟨str "f", [str "x", str "y"]⟩]

theorem main_reads_twoItems : programText twoItems = str "x - ( y - 2 ) * 3 ; extern f ( x y ) ; " ∧ ∃ s out,
    main 200 (Globals.start id [] (programText twoItems)) = some s ∧ s.CurTok = .tok_eof ∧
      s.stderr = .prompt "ready> " :: out ∧ reports out = twoItems.map (Item.report id) := by
  have hname : ∀ c, isalpha c → Writable (.identifier [c]) := by
    refine fun c hc => ⟨⟨c, [], rfl, hc, List.forall_mem_nil _⟩, ?_, ?_⟩
    · rintro ⟨⟩
    · rintro ⟨⟩
  have hnumber : ∀ c, isnumber c → Writable (.number [c]) := fun c hc =>
    ⟨List.cons_ne_nil _ _, List.forall_mem_singleton.mpr hc⟩
  refine ⟨by decide, main_reads_programText id [] twoItems ?_ 200 (by decide)⟩
  refine List.forall_mem_cons.mpr ⟨?_, List.forall_mem_singleton.mpr ?_⟩
  · exact .binary (by decide) (.identifier (hname _ (by decide))) (.binary (by decide)
      (.binary (by decide) (.identifier (hname _ (by decide))) (.number (hnumber _ (by decide))))
      (.number (hnumber _ (by decide))))
  · exact List.forall_mem_cons.mpr ⟨hname _ (by decide), List.forall_mem_cons.mpr ⟨hname _ (by decide),
      List.forall_mem_singleton.mpr (hname _ (by decide))⟩⟩

end accelerators.kaleidoscope
