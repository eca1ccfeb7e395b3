import Accelerators.Kaleidoscope.Lexer.Lexes

namespace accelerators.kaleidoscope

variable {V : Type}

/-- The bytes that a token was read from. -/
def Lexeme.text : Lexeme Str → Str
  | .defKeyword => str "def"
  | .externKeyword => str "extern"
  | .identifier name => name
  | .number text => text
  | .char c => [c]

/-- The bytes with every comment deleted, from its `#` up to but not including
    the end of its line. The flag tells whether a comment is open. -/
def withoutComments : Bool → List UInt8 → List UInt8
  | _, [] => []
  | false, c :: rest => if c = chr '#' then withoutComments true rest else c :: withoutComments false rest
  | true, c :: rest => if iscomment c then withoutComments true rest else c :: withoutComments false rest

/-- The bytes with all comments and all whitespace deleted. -/
def strip (bytes : List UInt8) : List UInt8 := (withoutComments false bytes).filter fun c => !isspace c

theorem ne_hash_of_isspace {c : UInt8} (h : isspace c) : c ≠ chr '#' := by
  rintro rfl
  revert h
  decide

theorem ne_hash_of_isalnum {c : UInt8} (h : isalnum c) : c ≠ chr '#' := by
  rintro rfl
  revert h
  decide

theorem ne_hash_of_isnumber {c : UInt8} (h : isnumber c) : c ≠ chr '#' := by
  rintro rfl
  revert h
  decide

theorem not_isspace_of_isalnum {c : UInt8} (h : isalnum c) : ¬ isspace c := by
  have hall := forall_byte (P := fun c => !isalnum c || !isspace c) (by decide +kernel) c
  simp_all

theorem isalnum_of_isalpha {c : UInt8} (h : isalpha c) : isalnum c := by
  simp [isalnum, h]

theorem withoutComments_comment {body : List UInt8} (rest : List UInt8) (hbody : ∀ b ∈ body, iscomment b) :
    withoutComments true (body ++ rest) = withoutComments true rest := by
  induction body with
  | nil => rfl
  | cons b body ih =>
    obtain ⟨hb, hbody⟩ := List.forall_mem_cons.mp hbody
    simp [withoutComments, hb, ih hbody]

theorem withoutComments_text {text rest : List UInt8} (htext : ∀ b ∈ text, b ≠ chr '#') :
    withoutComments false (text ++ rest) = text ++ withoutComments false rest := by
  induction text with
  | nil => rfl
  | cons b text ih =>
    obtain ⟨hb, htext⟩ := List.forall_mem_cons.mp htext
    simp [withoutComments, hb, ih htext]

theorem strip_text (text rest : List UInt8) (hhash : ∀ b ∈ text, b ≠ chr '#')
    (hspace : ∀ b ∈ text, ¬ isspace b) : strip (text ++ rest) = text ++ strip rest := by
  have hfilter : text.filter (fun c => !isspace c) = text := List.filter_eq_self.mpr (by simpa using hspace)
  rw [strip, withoutComments_text hhash, List.filter_append, hfilter, strip]

theorem wordLexeme_text (word : Str) : (wordLexeme word : Lexeme Str).text = word := by
  unfold wordLexeme
  split_ifs with hdef hext
  · exact hdef.symm
  · exact hext.symm
  · rfl

/-- The texts of the tokens, in order, are the input without whitespace and
    comments. -/
theorem Lexes.texts {bytes : List UInt8} {ts : List (Lexeme Str)} (h : Lexes bytes ts) :
    (ts.map Lexeme.text).flatten = strip bytes := by
  induction h with
  | nil => rfl
  | space hc h ih => simp [strip, withoutComments, ne_hash_of_isspace hc, hc, ih]
  | @comment body rest d ts hbody hd h ih =>
    have hne : d ≠ chr '#' := by
      rintro rfl
      revert hd
      decide
    rw [ih]
    simp [strip, withoutComments, withoutComments_comment _ hbody, hd, hne]
  | @commentEnd body hbody =>
    have hnil := withoutComments_comment [] hbody
    simp only [List.append_nil] at hnil
    simp [strip, withoutComments, hnil]
  | @word c tail rest ts hc htail hrest h ih =>
    have hword : ∀ b ∈ c :: tail, isalnum b := List.forall_mem_cons.mpr ⟨isalnum_of_isalpha hc, htail⟩
    have hstrip := strip_text (c :: tail) rest (fun b hb => ne_hash_of_isalnum (hword b hb))
      (fun b hb => not_isspace_of_isalnum (hword b hb))
    simp only [List.cons_append] at hstrip
    rw [hstrip, List.map_cons, List.flatten_cons, wordLexeme_text, ih, List.cons_append]
  | @number c tail rest ts hc htail hrest h ih =>
    have hnumber : ∀ b ∈ c :: tail, isnumber b := List.forall_mem_cons.mpr ⟨hc, htail⟩
    have hstrip := strip_text (c :: tail) rest (fun b hb => ne_hash_of_isnumber (hnumber b hb))
      (fun b hb => not_isspace_of_isnumber (hnumber b hb))
    simp only [List.cons_append] at hstrip
    rw [hstrip, List.map_cons, List.flatten_cons, ih, Lexeme.text, List.cons_append]
  | @char c rest ts hspace halpha hnumber hcomment h ih =>
    have hstrip := strip_text [c] rest (by simpa using hcomment) (by simpa using hspace)
    simp only [List.singleton_append] at hstrip
    rw [hstrip, List.map_cons, List.flatten_cons, ih, Lexeme.text, List.singleton_append]

/-- The lexer neither loses nor invents input: up to the first `tok_eof` there
    are at most as many calls as bytes, and that last call; the texts of the
    returned tokens make up the input without whitespace and comments. -/
theorem gettok_conserves_input (input : List UInt8) :
    ∃ ts : List (Lexeme Str), ts.length + 1 ≤ input.length + 1 ∧
      (ts.map Lexeme.text).flatten = strip input ∧
      ∀ (V : Type) (strtod : Str → V) (g : Lexical (Stdin strtod) V),
        g.source = ⟨some (chr ' '), input⟩ → Drains g (ts.map (Lexeme.convert strtod)) := by
  obtain ⟨ts, hlexes, hlength⟩ := exists_lexes input
  refine ⟨ts, by omega, hlexes.texts, fun V strtod g hg => ?_⟩
  have hstart : Lexes (chr ' ' :: input) ts := .space (by decide) hlexes
  exact hstart.drains g (by rw [hg]; rfl)

end accelerators.kaleidoscope
