import Accelerators.Kaleidoscope.TopLevel.Items

namespace accelerators.kaleidoscope

variable {σ V : Type} {prec : UInt8 → Int}

/-- An item that begins before a foreign character stops there at the latest. -/
theorem ItemRuns.stops_before {c : UInt8} (hc : Foreign prec c) {w rest P Q : List (Lexeme V)} {t : Token}
    {result : Except String (Report V)} (h : ItemRuns prec w t result)
    (hts : w ++ rest = P ++ .char c :: Q) : ∃ P', P = w ++ P' ∧ rest = P' ++ .char c :: Q := by
  obtain ⟨P', hP, hrest⟩ | ⟨w', hw, hrest⟩ := List.append_eq_append_iff.mp hts
  · exact ⟨P', hP, hrest⟩
  · cases w' with
    | nil => exact ⟨[], by simpa using hw.symm, by simpa using hrest.symm⟩
    | cons x xs =>
      obtain ⟨rfl, -⟩ := List.cons.inj hrest
      exact absurd (by simp [hw]) (h.foreign hc)

theorem Session.reports_of_nil {ts : List (Lexeme V)} {out : List (Report V)} (h : Session prec ts out)
    (hts : ts = []) : reports out = [] := by
  cases h with
  | eof => rfl
  | semicolon h => cases hts
  | item hitem h =>
    have hlt := hitem.recovered_lt
    simp [hts] at hlt

@[simp] theorem reports_prompt (text : String) (out : List (Report V)) :
    reports (.prompt text :: out) = reports out := rfl

theorem reports_logged {w : List (Lexeme V)} {t : Token} {result : Except String (Report V)}
    (h : ItemRuns prec w t result) (out : List (Report V)) :
    reports (logged result :: out) = logged result :: reports out := by
  simp [reports, logged_not_prompt h]

/-- The session on `P ; Q` reports what the sessions on `P ;` and on `Q` report. -/
theorem Session.append (hc : Foreign prec (chr ';')) {ts P Q : List (Lexeme V)}
    {outP outQ : List (Report V)} (h : Session prec ts outP) (hts : ts = P ++ [.char (chr ';')])
    (hQ : Session prec Q outQ) :
    ∃ out, Session prec (P ++ .char (chr ';') :: Q) out ∧ reports out = reports outP ++ reports outQ := by
  induction h generalizing P with
  | eof => simp at hts
  | @semicolon ts outP h ih =>
    cases P with
    | nil =>
      have hnil : ts = [] := by simpa using hts
      exact ⟨_, .semicolon hQ, by simp [h.reports_of_nil hnil]⟩
    | cons x P =>
      rw [List.cons_append] at hts
      obtain ⟨rfl, htail⟩ := List.cons.inj hts
      obtain ⟨out, hout, hreports⟩ := ih htail
      exact ⟨_, .semicolon hout, by simpa using hreports⟩
  | @item w rest result outP hitem h ih =>
    obtain ⟨P', rfl, rfl⟩ := hitem.stops_before hc hts
    have hpeek : peek (P' ++ [.char (chr ';')]) .tok_eof =
        peek (P' ++ .char (chr ';') :: Q) .tok_eof := by cases P' <;> rfl
    have hitem' := hpeek ▸ hitem
    -- what is left after the item is `P'' ;` again, unless recovery skips the `;` itself
    obtain ⟨out, hout, hreports⟩ : ∃ out,
        Session prec (recovered result (P' ++ .char (chr ';') :: Q)) out ∧
        reports out = reports outP ++ reports outQ := by
      cases result with
      | ok r => exact ih rfl
      | error msg =>
        cases P' with
        | nil => exact ⟨outQ, hQ, by simp [h.reports_of_nil rfl]⟩
        | cons x P'' => exact ih rfl
    refine ⟨_, by simpa using Session.item hitem' hout, ?_⟩
    simp [reports_logged hitem', hreports]

theorem foreign_semicolon : Foreign standardPrecedence (chr ';') := by
  refine ⟨?_, by decide, by decide, by decide⟩
  decide

/-- A semicolon is a hard resynchronisation point of the top-level loop: what
    is reported on `P ; Q` is what is reported on `P ;` and then what is
    reported on `Q` alone, whatever errors there are in `P`. -/
theorem MainLoop_semicolon_resynchronises [TokenSource σ V] {s sP sQ : Globals σ V}
    {P Q : List (Lexeme V)} (hat : s.At (P ++ .char (chr ';') :: Q))
    (hatP : sP.At (P ++ [.char (chr ';')])) (hatQ : sQ.At Q) (fuel : Nat)
    (hfuel : 3 * (P.length + Q.length + 1) + 3 ≤ fuel) :
    ∃ s' sP' sQ' out outP outQ,
      MainLoop standardPrecedence fuel s = some s' ∧ s'.stderr = s.stderr ++ out ∧
      MainLoop standardPrecedence fuel sP = some sP' ∧ sP'.stderr = sP.stderr ++ outP ∧
      MainLoop standardPrecedence fuel sQ = some sQ' ∧ sQ'.stderr = sQ.stderr ++ outQ ∧
      reports out = reports outP ++ reports outQ := by
  obtain ⟨outP, hP, -⟩ := exists_session standardPrecedence (P ++ [.char (chr ';')])
  obtain ⟨outQ, hQ, -⟩ := exists_session standardPrecedence Q
  obtain ⟨out, hPQ, hreports⟩ := hP.append foreign_semicolon rfl hQ
  obtain ⟨s', hs', -, herr⟩ := hPQ.mainLoop s hat fuel (by simp only [List.length_append, List.length_cons]; omega)
  obtain ⟨sP', hsP', -, herrP⟩ := hP.mainLoop sP hatP fuel
    (by simp only [List.length_append, List.length_cons, List.length_nil]; omega)
  obtain ⟨sQ', hsQ', -, herrQ⟩ := hQ.mainLoop sQ hatQ fuel (by omega)
  exact ⟨s', sP', sQ', out, outP, outQ, hs', herr, hsP', herrP, hsQ', herrQ, hreports⟩

/-- `def ; 7`: the error in front of the semicolon does not touch the expression. -/
theorem MainLoop_resynchronises_after_def : ∃ s' sP' sQ' out outP outQ,
    MainLoop standardPrecedence 12 (Globals.ofTokens 0 [.defKeyword, .char (chr ';'), .number 7]) = some s' ∧
    s'.stderr = out ∧
    MainLoop standardPrecedence 12 (Globals.ofTokens 0 [.defKeyword, .char (chr ';')]) = some sP' ∧
    sP'.stderr = outP ∧
    MainLoop standardPrecedence 12 (Globals.ofTokens 0 [.number 7]) = some sQ' ∧ sQ'.stderr = outQ ∧
    reports out = reports outP ++ reports outQ :=
  MainLoop_semicolon_resynchronises (P := [.defKeyword]) (Q := [.number 7]) (Globals.at_ofTokens 0 _)
    (Globals.at_ofTokens 0 _) (Globals.at_ofTokens 0 _) 12 (by decide)

end accelerators.kaleidoscope
