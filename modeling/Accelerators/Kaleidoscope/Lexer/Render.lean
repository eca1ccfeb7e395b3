import Mathlib.Data.List.Chain
import Accelerators.Kaleidoscope.Lexer.Conservation

namespace accelerators.kaleidoscope

/-- The tokens that can be written down: keywords, identifiers other than the
    keywords, texts over digits and points, and bytes with no other meaning. -/
def Writable : Lexeme Str → Prop
  | .defKeyword => True
  | .externKeyword => True
  | .identifier name => (∃ c tail, name = c :: tail ∧ isalpha c ∧ ∀ b ∈ tail, isalnum b) ∧
      name ≠ str "def" ∧ name ≠ str "extern"
  | .number text => text ≠ [] ∧ ∀ b ∈ text, isnumber b
  | .char c => ¬ isspace c ∧ ¬ isalnum c ∧ c ≠ chr '.' ∧ c ≠ chr '#'

/-- A separator: whitespace, and comments together with the end of their line. -/
inductive Separator : List UInt8 → Prop where
  | nil : Separator []
  | space {c : UInt8} {rest : List UInt8} (hc : isspace c) (h : Separator rest) : Separator (c :: rest)
  | comment {body rest : List UInt8} {d : UInt8} (hbody : ∀ b ∈ body, iscomment b)
      (hd : ¬ iscomment d) (h : Separator rest) : Separator (chr '#' :: (body ++ d :: rest))

/-- The end of a rendering: nothing, or a comment that no end of line closes. -/
def Trailer (bytes : List UInt8) : Prop :=
  bytes = [] ∨ ∃ body, bytes = chr '#' :: body ∧ ∀ b ∈ body, iscomment b

def Lexeme.IsWord : Lexeme Str → Prop
  | .defKeyword | .externKeyword | .identifier _ => True
  | _ => False

/-- Neighbours that would run together without a separator: a word and a word
    or a number that begins with a digit, and two numbers. -/
def RunTogether (x y : Lexeme Str) : Prop :=
  (x.IsWord ∧ (y.IsWord ∨ ∃ c tail, y = .number (c :: tail) ∧ isdigit c)) ∨
    ∃ text text', x = .number text ∧ y = .number text'

/-- A token with the separator after it. -/
structure Written where
  token : Lexeme Str
  separator : List UInt8

def render (leading : List UInt8) (pieces : List Written) (trailer : List UInt8) : List UInt8 :=
  leading ++ (pieces.flatMap (fun x => x.token.text ++ x.separator) ++ trailer)

theorem Separator.lexes {sep rest : List UInt8} {ts : List (Lexeme Str)} (h : Separator sep)
    (hrest : Lexes rest ts) : Lexes (sep ++ rest) ts := by
  induction h with
  | nil => exact hrest
  | space hc h ih => exact .space hc ih
  | @comment body rest' d hbody hd h ih =>
    have hspace : isspace d := by
      have hall := forall_byte (P := fun c => iscomment c || isspace c) (by decide +kernel) d
      simp_all
    simpa using Lexes.comment hbody hd (.space hspace ih)

theorem Separator.head {sep : List UInt8} (h : Separator sep) :
    ∀ b ∈ sep.head?, isspace b ∨ b = chr '#' := by
  cases h with
  | nil => simp
  | space hc h => simpa using .inl hc
  | comment hbody hd h => simp

theorem Trailer.lexes {trailer : List UInt8} (h : Trailer trailer) : Lexes trailer [] := by
  obtain rfl | ⟨body, rfl, hbody⟩ := h
  · exact .nil
  · exact .commentEnd hbody

theorem Trailer.head {trailer : List UInt8} (h : Trailer trailer) :
    ∀ b ∈ trailer.head?, isspace b ∨ b = chr '#' := by
  rcases h with rfl | ⟨body, rfl, hbody⟩ <;> simp

/-- Separators end words and numbers. -/
theorem not_isalnum_of_separator {b : UInt8} (h : isspace b ∨ b = chr '#') : ¬ isalnum b := by
  have hall := forall_byte (P := fun c => !(isspace c || c == chr '#') || !isalnum c) (by decide +kernel) b
  rcases h with h | h <;> simp_all

theorem not_isnumber_of_separator {b : UInt8} (h : isspace b ∨ b = chr '#') : ¬ isnumber b := by
  have hall := forall_byte (P := fun c => !(isspace c || c == chr '#') || !isnumber c) (by decide +kernel) b
  rcases h with h | h <;> simp_all

theorem not_isnumber_of_isalpha {b : UInt8} (h : isalpha b) : ¬ isnumber b :=
  fun hnumber => not_isalpha_of_isnumber hnumber h

theorem not_isalnum_of_isnumber {b : UInt8} (h : isnumber b) (hdigit : ¬ isdigit b) : ¬ isalnum b := by
  have hall := forall_byte (P := fun c => !isnumber c || isdigit c || !isalnum c) (by decide +kernel) b
  simp_all

/-- One written token is read back when the byte after it does not prolong it. -/
theorem Lexes.token {x : Lexeme Str} (hx : Writable x) {after : List UInt8} {ts : List (Lexeme Str)}
    (hword : x.IsWord → ∀ b ∈ after.head?, ¬ isalnum b)
    (hnumber : ∀ text, x = .number text → ∀ b ∈ after.head?, ¬ isnumber b) (h : Lexes after ts) :
    Lexes (x.text ++ after) (x :: ts) := by
  cases x with
  | defKeyword =>
    have hlexes : Lexes (chr 'd' :: (str "ef" ++ after)) (wordLexeme (chr 'd' :: str "ef") :: ts) :=
      .word (by decide) (List.all_eq_true.mp rfl) (hword trivial) h
    exact hlexes
  | externKeyword =>
    have hlexes : Lexes (chr 'e' :: (str "xtern" ++ after)) (wordLexeme (chr 'e' :: str "xtern") :: ts) :=
      .word (by decide) (List.all_eq_true.mp rfl) (hword trivial) h
    exact hlexes
  | identifier name =>
    obtain ⟨⟨c, tail, rfl, hc, htail⟩, hdef, hext⟩ := hx
    have hlexes := Lexes.word hc htail (hword trivial) h
    rwa [wordLexeme, if_neg hdef, if_neg hext] at hlexes
  | number text =>
    obtain ⟨hne, htext⟩ := hx
    cases text with
    | nil => contradiction
    | cons c tail =>
      obtain ⟨hc, htail⟩ := List.forall_mem_cons.mp htext
      exact .number hc htail (hnumber _ rfl) h
  | char c =>
    obtain ⟨hspace, halnum, hpoint, hhash⟩ := hx
    have halpha : ¬ isalpha c := fun h => halnum (isalnum_of_isalpha h)
    have hnum : ¬ isnumber c := by
      intro h
      rw [isalnum] at halnum
      simp_all [isnumber]
    exact .char hspace halpha hnum hhash h

/-- What a writable token begins with, seen from the token before it. -/
theorem Writable.head {y : Lexeme Str} (hy : Writable y) (after : List UInt8) :
    ∃ c, (y.text ++ after).head? = some c ∧ (y.IsWord ∧ isalpha c ∨
      (∃ tail, y = .number (c :: tail) ∧ isnumber c) ∨ (¬ isalnum c ∧ ¬ isnumber c)) := by
  cases y with
  | defKeyword => exact ⟨chr 'd', rfl, .inl ⟨trivial, by decide⟩⟩
  | externKeyword => exact ⟨chr 'e', rfl, .inl ⟨trivial, by decide⟩⟩
  | identifier name =>
    obtain ⟨⟨c, tail, rfl, hc, -⟩, -, -⟩ := hy
    exact ⟨c, rfl, .inl ⟨trivial, hc⟩⟩
  | number text =>
    obtain ⟨hne, htext⟩ := hy
    cases text with
    | nil => contradiction
    | cons c tail => exact ⟨c, rfl, .inr (.inl ⟨tail, rfl, htext c List.mem_cons_self⟩)⟩
  | char c =>
    obtain ⟨-, halnum, hpoint, -⟩ := hy
    refine ⟨c, rfl, .inr (.inr ⟨halnum, ?_⟩)⟩
    rw [isalnum] at halnum
    simp_all [isnumber]

/-- An empty separator is used only between neighbours that it keeps apart. -/
def KeepsApart (x y : Written) : Prop := x.separator = [] → ¬ RunTogether x.token y.token

/-- The first byte after a token and its separator does not prolong the token. -/
theorem rendered_stops {x : Written} {rest : List Written} {trailer : List UInt8}
    (hsep : Separator x.separator) (htrailer : Trailer trailer) (hrest : ∀ y ∈ rest, Writable y.token)
    (hapart : ∀ y ∈ rest.head?, KeepsApart x y) :
    (x.token.IsWord → ∀ b ∈ (x.separator ++ render [] rest trailer).head?, ¬ isalnum b) ∧
      ∀ text, x.token = .number text →
        ∀ b ∈ (x.separator ++ render [] rest trailer).head?, ¬ isnumber b := by
  cases hs : x.separator with
  | cons c sep =>
    have hc := hsep.head c (by simp [hs])
    simp only [List.cons_append, List.head?_cons, Option.mem_def, Option.some.injEq, forall_eq']
    exact ⟨fun _ => not_isalnum_of_separator hc, fun _ _ => not_isnumber_of_separator hc⟩
  | nil =>
    cases rest with
    | nil =>
      have hhead := htrailer.head
      simp only [render, List.flatMap_nil, List.nil_append]
      exact ⟨fun _ b hb => not_isalnum_of_separator (hhead b hb),
        fun _ _ b hb => not_isnumber_of_separator (hhead b hb)⟩
    | cons y ys =>
      have hnot := hapart y rfl hs
      obtain ⟨c, hhead, hc⟩ := (hrest y List.mem_cons_self).head (y.separator ++ render [] ys trailer)
      have hrender : render [] (y :: ys) trailer =
          y.token.text ++ (y.separator ++ render [] ys trailer) := by
        simp [render]
      simp only [List.nil_append, hrender, hhead, Option.mem_def, Option.some.injEq]
      constructor
      · rintro hword b rfl
        obtain ⟨hyword, _⟩ | ⟨tail, hy, hnumber⟩ | ⟨halnum, _⟩ := hc
        · exact absurd (.inl ⟨hword, .inl hyword⟩) hnot
        · exact not_isalnum_of_isnumber hnumber (fun hdigit =>
            hnot (.inl ⟨hword, .inr ⟨_, tail, hy, hdigit⟩⟩))
        · exact halnum
      · rintro text htext b rfl
        obtain ⟨_, halpha⟩ | ⟨tail, hy, _⟩ | ⟨_, hnumber⟩ := hc
        · exact not_isnumber_of_isalpha halpha
        · exact absurd (.inr ⟨text, _, htext, hy⟩) hnot
        · exact hnumber

theorem lexes_rendered {trailer : List UInt8} (htrailer : Trailer trailer) (pieces : List Written)
    (hwritable : ∀ x ∈ pieces, Writable x.token) (hseps : ∀ x ∈ pieces, Separator x.separator)
    (hapart : pieces.IsChain KeepsApart) : Lexes (render [] pieces trailer) (pieces.map Written.token) := by
  induction pieces with
  | nil => simpa [render] using htrailer.lexes
  | cons x rest ih =>
    obtain ⟨hx, hwritable⟩ := List.forall_mem_cons.mp hwritable
    obtain ⟨hsep, hseps⟩ := List.forall_mem_cons.mp hseps
    obtain ⟨hnext, htail⟩ := List.isChain_cons.mp hapart
    obtain ⟨hword, hnumber⟩ := rendered_stops hsep htrailer hwritable hnext
    have hlexes := (hsep.lexes (ih hwritable hseps htail)).token hx hword hnumber
    simpa [render] using hlexes

/-- Lexing undoes rendering: successive calls of `gettok` on written tokens
    with separators between them return exactly these tokens, with their names
    and number texts, and then `tok_eof` for ever. -/
theorem gettok_undoes_render {V : Type} {strtod : Str → V} (leading trailer : List UInt8)
    (pieces : List Written) (hleading : Separator leading) (htrailer : Trailer trailer)
    (hwritable : ∀ x ∈ pieces, Writable x.token) (hseps : ∀ x ∈ pieces, Separator x.separator)
    (hapart : pieces.IsChain KeepsApart) {g : Lexical (Stdin strtod) V}
    (hg : g.source = ⟨some (chr ' '), render leading pieces trailer⟩) :
    Drains g ((pieces.map Written.token).map (Lexeme.convert strtod)) := by
  have hbody := hleading.lexes (lexes_rendered htrailer pieces hwritable hseps hapart)
  have hstart : Lexes (chr ' ' :: render leading pieces trailer) (pieces.map Written.token) :=
    .space (by decide) (by simpa [render] using hbody)
  exact hstart.drains g (by rw [hg]; rfl)

/-- `def x#y` and an end of line, then `1.5` and a comment up to the end of input. -/
theorem gettok_undoes_render_definition :
    Drains (⟨⟨some (chr ' '), str "def x#y\n1.5#z"⟩, [], []⟩ : Lexical (Stdin id) Str)
      [.defKeyword, .identifier (str "x"), .number (str "1.5")] :=
  gettok_undoes_render [] (str "#z")
    [⟨.defKeyword, str " "⟩, ⟨.identifier (str "x"), str "#y\n"⟩, ⟨.number (str "1.5"), []⟩]
    .nil (.inr ⟨str "z", rfl, List.all_eq_true.mp rfl⟩)
    (by
      simp only [List.forall_mem_cons, List.not_mem_nil, false_implies, implies_true, and_true, Writable,
        true_and]
      exact ⟨⟨⟨chr 'x', [], rfl, rfl, by simp⟩, by decide⟩, by decide, List.all_eq_true.mp rfl⟩)
    (by
      simp only [List.forall_mem_cons, List.not_mem_nil, false_implies, implies_true, and_true]
      exact ⟨.space (by decide) .nil,
        @Separator.comment (str "y") [] (chr '\n') (List.all_eq_true.mp rfl) (by decide) .nil, .nil⟩)
    (by simp [KeepsApart, str]) rfl

end accelerators.kaleidoscope
