import Accelerators.Kaleidoscope.TopLevel.Session
import Accelerators.Kaleidoscope.Grammar.Complete

namespace accelerators.kaleidoscope

variable {V : Type} {prec : UInt8 → Int}

/-- The tokens `id '(' id* ')'` of a prototype. -/
def protoTokens (Proto : PrototypeAST) : List (Lexeme V) :=
  .identifier Proto.Name :: .char (chr '(') :: (Proto.Args.map .identifier ++ [.char (chr ')')])

/-- A grammatical top-level item, with the report about it. -/
inductive IsItem (prec : UInt8 → Int) : List (Lexeme V) → Report V → Prop where
  | definition (Proto : PrototypeAST) {w : List (Lexeme V)} {E : ExprAST V} (hbody : IsExpr prec w E) :
      IsItem prec (.defKeyword :: (protoTokens Proto ++ w)) (.definition ⟨Proto, E⟩)
  | externItem (Proto : PrototypeAST) : IsItem prec (.externKeyword :: protoTokens Proto) (.externProto Proto)
  | toplevel {w : List (Lexeme V)} {E : ExprAST V} (hexpr : IsExpr prec w E) :
      IsItem prec w (.toplevel ⟨⟨str "__anon_expr", []⟩, E⟩)

theorem protoTokens_runs (Proto : PrototypeAST) (t : Token) :
    ProtoRuns (protoTokens Proto : List (Lexeme V)) t (.ok Proto) :=
  .proto Proto.Name Proto.Args t

theorem StartsPrimary.startsItem {t : Token} (h : StartsPrimary t) :
    StartsItem t ∧ t ≠ .tok_def ∧ t ≠ Token.tok_extern := by
  rcases h with rfl | rfl | rfl <;> exact ⟨⟨by decide, by decide⟩, by decide, by decide⟩

/-- Every grammatical item is handled as such where maximal munch ends it. -/
theorem IsItem.runs (htable : OperatorTable prec) {w : List (Lexeme V)} {r : Report V}
    (h : IsItem prec w r) (t : Token) (hmunch : MunchedBefore prec w t) :
    ItemRuns prec w t (.ok r) := by
  cases h with
  | @definition Proto w E hbody =>
    have hrun := hbody.runs htable t
      ⟨hmunch.1, fun h => hmunch.2 (h.append (.defKeyword :: protoTokens Proto))⟩
    exact .definition (protoTokens_runs Proto _) hrun
  | externItem Proto => exact .externItem (protoTokens_runs Proto t)
  | toplevel hexpr =>
    obtain ⟨hstart, hdef, hext⟩ := (hexpr.peek_starts t).startsItem
    exact .toplevel hstart hdef hext (hexpr.runs htable t hmunch)

theorem ProtoRuns.eq_protoTokens {w : List (Lexeme V)} {t : Token} {Proto : PrototypeAST}
    (h : ProtoRuns w t (.ok Proto)) : w = protoTokens Proto := by
  cases h
  rfl

theorem ProtoRuns.viable {w : List (Lexeme V)} {t : Token} {msg : String}
    (h : ProtoRuns w t (.error msg)) : ∃ z Proto, w ++ z = (protoTokens Proto : List (Lexeme V)) := by
  cases h with
  | noName => exact ⟨_, ⟨str "f", []⟩, rfl⟩
  | noOpen name => exact ⟨[.char (chr '('), .char (chr ')')], ⟨name, []⟩, rfl⟩
  | noClose name args => exact ⟨[.char (chr ')')], ⟨name, args⟩, rfl⟩

/-- A failed run of an item has read a beginning of a grammatical item. -/
theorem ItemRuns.viable {w : List (Lexeme V)} {t : Token} {result : Except String (Report V)}
    (h : ItemRuns prec w t result) {msg : String} (herror : result = .error msg) :
    ∃ z r, IsItem prec (w ++ z) r := by
  cases h with
  | proto hproto =>
    obtain ⟨z, Proto, hw⟩ := hproto.viable
    have hbody : IsExpr prec [(.identifier (str "x") : Lexeme V)] _ := (IsPrimary.identifier _).expr
    exact ⟨z ++ [.identifier (str "x")], _, by simpa [← hw] using IsItem.definition Proto hbody⟩
  | @definition w w' t Proto result hproto hbody =>
    cases result with
    | ok E => cases herror
    | error msg =>
      obtain ⟨z, E, hexpr⟩ := hbody.viable trivial rfl
      exact ⟨z, _, by simpa [hproto.eq_protoTokens] using IsItem.definition Proto hexpr⟩
  | @externItem w t result hproto =>
    cases result with
    | ok Proto => cases herror
    | error msg =>
      obtain ⟨z, Proto, hw⟩ := hproto.viable
      exact ⟨z, _, by simpa [hw] using IsItem.externItem Proto⟩
  | @toplevel w t result hstart hdef hext hexpr =>
    cases result with
    | ok E => cases herror
    | error msg =>
      obtain ⟨z, E, hexpr⟩ := hexpr.viable trivial rfl
      exact ⟨z, _, .toplevel hexpr⟩

/-- A token stream has only one run of its first item. -/
theorem ItemRuns.unique {w w' rest : List (Lexeme V)} (rest' : List (Lexeme V))
    {result result' : Except String (Report V)}
    (v : V) (h : ItemRuns prec w (peek rest .tok_eof) result)
    (h' : ItemRuns prec w' (peek rest' .tok_eof) result') (hts : w ++ rest = w' ++ rest') :
    w = w' ∧ rest = rest' ∧ result = result' := by
  let s := Globals.ofTokens v (w ++ rest)
  let fuel := 3 * (w ++ rest).length + 2
  have hlen' : w'.length ≤ (w ++ rest).length := by simp [hts]
  have hret := h.returns s rest fuel (Globals.at_ofTokens v _) rfl (by simp only [fuel, List.length_append]; omega)
  have hret' := h'.returns s rest' fuel (hts ▸ Globals.at_ofTokens v _) rfl
    (by simp only [fuel]; omega)
  obtain ⟨rfl, rfl⟩ := hret.unique hret'
  exact ⟨List.append_cancel_right hts, rfl, rfl⟩

theorem munchedBefore_eof (w : List (Lexeme V)) : MunchedBefore prec w .tok_eof :=
  ⟨by simp [GetTokPrecedence], fun _ => by decide⟩

/-- No grammatical item goes on with the token at which a run has failed. -/
theorem ItemRuns.dead (htable : OperatorTable prec) (v : V) {w rest : List (Lexeme V)} {msg : String}
    (h : ItemRuns prec w (peek rest .tok_eof) (.error msg)) (z : List (Lexeme V))
    (hz : peek z .tok_eof = peek rest .tok_eof) (r : Report V) : ¬ IsItem prec (w ++ z) r := by
  intro hitem
  have hok := hitem.runs htable .tok_eof (munchedBefore_eof _)
  have hfail : ItemRuns prec w (peek z .tok_eof) (.error msg) := by rwa [hz]
  have hsame := (ItemRuns.unique [] v hfail hok (by simp)).2.2
  cases hsame

theorem mem_commaSeparated {ws : List (List (Lexeme V))} {x : Lexeme V} (h : x ∈ commaSeparated ws) :
    x = .char (chr ',') ∨ ∃ w ∈ ws, x ∈ w := by
  induction ws with
  | nil => cases h
  | cons w rest ih =>
    by_cases hne : rest = []
    · subst hne
      exact .inr ⟨w, List.mem_cons_self, h⟩
    · rw [commaSeparated_cons hne, List.mem_append, List.mem_cons] at h
      obtain h | h | h := h
      · exact .inr ⟨w, List.mem_cons_self, h⟩
      · exact .inl h
      · exact (ih h).imp_right fun ⟨v, hv, hx⟩ => ⟨v, List.mem_cons_of_mem _ hv, hx⟩

theorem mem_linkTokens {links : List (Link V)} {x : Lexeme V} (h : x ∈ linkTokens links) :
    ∃ link ∈ links, x = .char link.op ∨ x ∈ link.tokens := by
  obtain ⟨link, hlink, hx⟩ := List.mem_flatMap.mp h
  exact ⟨link, hlink, List.mem_cons.mp hx⟩

/-- Characters that occur in no expression: neither operators nor punctuation. -/
def Foreign (prec : UInt8 → Int) (c : UInt8) : Prop :=
  GetTokPrecedence prec (.char c) < 0 ∧ c ≠ chr '(' ∧ c ≠ chr ')' ∧ c ≠ chr ','

mutual

theorem IsPrimary.foreign {c : UInt8} (hc : Foreign prec c) {w : List (Lexeme V)} {E : ExprAST V}
    (h : IsPrimary prec w E) : .char c ∉ w := by
  match h with
  | .number v => simp
  | .identifier name => simp
  | .call name args hargs =>
    intro hmem
    simp only [List.mem_cons, List.mem_append, reduceCtorEq, Lexeme.char.injEq, hc.2.1, hc.2.2.1,
      List.not_mem_nil, or_false, false_or] at hmem
    obtain hcomma | ⟨w, hw, hx⟩ := mem_commaSeparated hmem
    · exact hc.2.2.2 (Lexeme.char.inj hcomma)
    · obtain ⟨arg, harg, rfl⟩ := List.mem_map.mp hw
      exact (hargs arg harg).foreign hc hx
  | .paren hinner =>
    intro hmem
    simp only [List.mem_cons, List.mem_append, Lexeme.char.injEq, hc.2.1, hc.2.2.1,
      List.not_mem_nil, or_false, false_or] at hmem
    exact hinner.foreign hc hmem

theorem IsExpr.foreign {c : UInt8} (hc : Foreign prec c) {w : List (Lexeme V)} {E : ExprAST V}
    (h : IsExpr prec w E) : .char c ∉ w := by
  match h with
  | .chain hfirst hops hoperands =>
    intro hmem
    obtain hmem | hmem := List.mem_append.mp hmem
    · exact hfirst.foreign hc hmem
    · obtain ⟨link, hlink, hx | hx⟩ := mem_linkTokens hmem
      · have hpos := hops link hlink
        rw [← Lexeme.char.inj hx] at hpos
        exact absurd hc.1 (not_lt.mpr hpos.le)
      · exact (hoperands link hlink).foreign hc hx

end

theorem protoTokens_foreign {c : UInt8} (hc : Foreign prec c) (Proto : PrototypeAST) :
    (.char c : Lexeme V) ∉ protoTokens Proto := by
  simp [protoTokens, hc.2.1, hc.2.2.1]

theorem IsItem.foreign {c : UInt8} (hc : Foreign prec c) {w : List (Lexeme V)} {r : Report V}
    (h : IsItem prec w r) : .char c ∉ w := by
  cases h with
  | definition Proto hbody =>
    intro hmem
    simp only [List.mem_cons, reduceCtorEq, List.mem_append, false_or] at hmem
    exact hmem.elim (protoTokens_foreign hc Proto) (hbody.foreign hc)
  | externItem Proto => simpa using protoTokens_foreign hc Proto
  | toplevel hexpr => exact hexpr.foreign hc

/-- A successful run of an item has read a grammatical item. -/
theorem ItemRuns.sound {w : List (Lexeme V)} {t : Token} {result : Except String (Report V)}
    (h : ItemRuns prec w t result) {r : Report V} (hok : result = .ok r) : IsItem prec w r := by
  cases h with
  | proto hproto => cases hok
  | @definition w w' t Proto result hproto hbody =>
    cases result with
    | error msg => cases hok
    | ok E =>
      cases hok
      rw [hproto.eq_protoTokens]
      exact .definition Proto (hbody.sound trivial rfl).1
  | @externItem w t result hproto =>
    cases result with
    | error msg => cases hok
    | ok Proto =>
      cases hok
      rw [hproto.eq_protoTokens]
      exact .externItem Proto
  | @toplevel w t result hstart hdef hext hexpr =>
    cases result with
    | error msg => cases hok
    | ok E =>
      cases hok
      exact .toplevel (hexpr.sound trivial rfl).1

/-- No item, parsed or failed, runs over a foreign character. -/
theorem ItemRuns.foreign {c : UInt8} (hc : Foreign prec c) {w : List (Lexeme V)} {t : Token}
    {result : Except String (Report V)} (h : ItemRuns prec w t result) : .char c ∉ w := by
  cases result with
  | ok r => exact (h.sound rfl).foreign hc
  | error msg =>
    obtain ⟨z, r, hitem⟩ := h.viable rfl
    exact fun hmem => hitem.foreign hc (List.mem_append_left z hmem)

end accelerators.kaleidoscope
