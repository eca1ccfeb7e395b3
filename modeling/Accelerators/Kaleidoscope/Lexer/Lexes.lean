import Accelerators.Kaleidoscope.Lexer

namespace accelerators.kaleidoscope

variable {V : Type}

/-- The token of a word, which is a keyword or an identifier. -/
def wordLexeme (word : Str) : Lexeme V :=
  if word = str "def" then .defKeyword
  else if word = str "extern" then .externKeyword
  else .identifier word

/-- The same token with its number text converted. -/
def Lexeme.convert (strtod : Str → V) : Lexeme Str → Lexeme V
  | .defKeyword => .defKeyword
  | .externKeyword => .externKeyword
  | .identifier name => .identifier name
  | .number text => .number (strtod text)
  | .char c => .char c

/-- `Lexes bytes tokens`: the tokens of a byte sequence by longest match, with
    the number texts in place of their values. -/
inductive Lexes : List UInt8 → List (Lexeme Str) → Prop where
  | nil : Lexes [] []
  | space {c : UInt8} {rest : List UInt8} {ts : List (Lexeme Str)} (hc : isspace c)
      (h : Lexes rest ts) : Lexes (c :: rest) ts
  | comment {body rest : List UInt8} {d : UInt8} {ts : List (Lexeme Str)}
      (hbody : ∀ b ∈ body, iscomment b) (hd : ¬ iscomment d) (h : Lexes (d :: rest) ts) :
      Lexes (chr '#' :: (body ++ d :: rest)) ts
  | commentEnd {body : List UInt8} (hbody : ∀ b ∈ body, iscomment b) : Lexes (chr '#' :: body) []
  | word {c : UInt8} {tail rest : List UInt8} {ts : List (Lexeme Str)} (hc : isalpha c)
      (htail : ∀ b ∈ tail, isalnum b) (hrest : ∀ b ∈ rest.head?, ¬ isalnum b) (h : Lexes rest ts) :
      Lexes (c :: (tail ++ rest)) (wordLexeme (c :: tail) :: ts)
  | number {c : UInt8} {tail rest : List UInt8} {ts : List (Lexeme Str)} (hc : isnumber c)
      (htail : ∀ b ∈ tail, isnumber b) (hrest : ∀ b ∈ rest.head?, ¬ isnumber b) (h : Lexes rest ts) :
      Lexes (c :: (tail ++ rest)) (.number (c :: tail) :: ts)
  | char {c : UInt8} {rest : List UInt8} {ts : List (Lexeme Str)} (hspace : ¬ isspace c)
      (halpha : ¬ isalpha c) (hnumber : ¬ isnumber c) (hcomment : c ≠ chr '#') (h : Lexes rest ts) :
      Lexes (c :: rest) (.char c :: ts)

/-- A property of all bytes can be checked on each of the 256. -/
theorem forall_byte {P : UInt8 → Bool}
    (h : (List.range 256).all (fun n => P (UInt8.ofNat n)) = true) (c : UInt8) : P c := by
  have hc := List.all_eq_true.mp h c.toNat (List.mem_range.mpr c.toNat_lt)
  simpa using hc

theorem not_isspace_of_isalpha {c : UInt8} (h : isalpha c) : ¬ isspace c := by
  have hall := forall_byte (P := fun c => !isalpha c || !isspace c) (by decide +kernel) c
  simp_all

theorem not_isspace_of_isnumber {c : UInt8} (h : isnumber c) : ¬ isspace c := by
  have hall := forall_byte (P := fun c => !isnumber c || !isspace c) (by decide +kernel) c
  simp_all

theorem not_isalpha_of_isnumber {c : UInt8} (h : isnumber c) : ¬ isalpha c := by
  have hall := forall_byte (P := fun c => !isnumber c || !isalpha c) (by decide +kernel) c
  simp_all

theorem exists_longest_prefix (p : UInt8 → Bool) (bytes : List UInt8) :
    ∃ tail rest, bytes = tail ++ rest ∧ (∀ b ∈ tail, p b) ∧ ∀ b ∈ rest.head?, ¬ p b := by
  refine ⟨bytes.takeWhile p, bytes.dropWhile p, List.takeWhile_append_dropWhile.symm, ?_, ?_⟩
  · exact List.all_eq_true.mp List.all_takeWhile
  · intro b hb
    have hnot := List.head?_dropWhile_not p bytes
    rw [Option.mem_def] at hb
    simpa [hb] using hnot

/-- Every byte sequence has its tokens, no more of them than bytes. -/
theorem exists_lexes (bytes : List UInt8) : ∃ ts, Lexes bytes ts ∧ ts.length ≤ bytes.length := by
  induction hlen : bytes.length using Nat.strong_induction_on generalizing bytes with
  | _ n ih =>
    subst hlen
    cases bytes with
    | nil => exact ⟨[], .nil, by simp⟩
    | cons c after =>
      by_cases hspace : isspace c
      · obtain ⟨ts, h, hle⟩ := ih after.length (by simp) after rfl
        exact ⟨ts, .space hspace h, by simp only [List.length_cons]; omega⟩
      by_cases halpha : isalpha c
      · obtain ⟨tail, rest, rfl, htail, hrest⟩ := exists_longest_prefix isalnum after
        obtain ⟨ts, h, hle⟩ := ih rest.length (by simp only [List.length_append, List.length_cons]; omega) rest rfl
        exact ⟨_, .word halpha htail hrest h, by simp only [List.length_append, List.length_cons]; omega⟩
      by_cases hnumber : isnumber c
      · obtain ⟨tail, rest, rfl, htail, hrest⟩ := exists_longest_prefix isnumber after
        obtain ⟨ts, h, hle⟩ := ih rest.length (by simp only [List.length_append, List.length_cons]; omega) rest rfl
        exact ⟨_, .number hnumber htail hrest h, by simp only [List.length_append, List.length_cons]; omega⟩
      by_cases hcomment : c = chr '#'
      · subst hcomment
        obtain ⟨body, rest, rfl, hbody, hrest⟩ := exists_longest_prefix iscomment after
        cases rest with
        | nil => exact ⟨[], by simpa using Lexes.commentEnd hbody, by simp⟩
        | cons d rest =>
          obtain ⟨ts, h, hle⟩ := ih (d :: rest).length
            (by simp only [List.length_append, List.length_cons]; omega) (d :: rest) rfl
          refine ⟨ts, .comment hbody (hrest d rfl) h, ?_⟩
          simp only [List.length_cons, List.length_append] at hle ⊢
          omega
      · obtain ⟨ts, h, hle⟩ := ih after.length (by simp) after rfl
        exact ⟨_, .char hspace halpha hnumber hcomment h, by simp only [List.length_cons]; omega⟩

section
variable {strtod : Str → V}

theorem Drains.congr {g g' : Lexical (Stdin strtod) V} {ts : List (Lexeme V)} (h : Drains g' ts)
    (heq : gettok g = gettok g') : Drains g ts := by
  cases h with
  | nil hend hsticky => exact .nil (heq.trans hend) hsticky
  | cons hnext hstored htail => exact .cons (heq.trans hnext) hstored htail

theorem takeWhile_append_stop {p : UInt8 → Bool} {tail rest : List UInt8} (htail : ∀ b ∈ tail, p b)
    (hrest : ∀ b ∈ rest.head?, ¬ p b) : (tail ++ rest).takeWhile p = tail := by
  rw [List.takeWhile_append_of_pos htail]
  cases rest <;> simp_all

theorem dropWhile_append_stop {p : UInt8 → Bool} {tail rest : List UInt8} (htail : ∀ b ∈ tail, p b)
    (hrest : ∀ b ∈ rest.head?, ¬ p b) : (tail ++ rest).dropWhile p = rest := by
  rw [List.dropWhile_append_of_pos htail]
  cases rest <;> simp_all

theorem Stdin.of_unread_cons {src : Stdin strtod} {c : UInt8} {rest : List UInt8}
    (h : src.unread = c :: rest) : src.LastChar = some c ∧ src.input = rest := by
  unfold unread at h
  split at h <;> simp_all

theorem Stdin.of_unread_nil {src : Stdin strtod} (h : src.unread = []) : src.LastChar = none := by
  unfold unread at h
  split at h <;> simp_all

theorem Stdin.scan_snd (p : UInt8 → Bool) (text text' : Str) (src : Stdin strtod) :
    (src.scan p text).2 = (src.scan p text').2 := by
  fun_induction Stdin.scan p text src generalizing text' with
  | case1 text src h => rw [scan_of_neg (by simp [h])]
  | case2 text src c h hp ih => rw [scan_of_pos h hp, ih]
  | case3 text src c h hp => rw [scan_of_neg (by simp [h, hp])]

theorem gettok_eof {g : Lexical (Stdin strtod) V} (h : g.source.unread = []) :
    gettok g = (.tok_eof, g) := by
  have hlast := Stdin.of_unread_nil h
  have hskip : g.source.scan isspace [] = ([], g.source) := Stdin.scan_of_neg (by simp [hlast]) []
  rw [gettok]
  simp only [hskip]
  split
  · rfl
  · simp_all

theorem gettok_space {g : Lexical (Stdin strtod) V} {c : UInt8} {rest : List UInt8}
    (h : g.source.unread = c :: rest) (hc : isspace c) :
    gettok g = gettok { g with source := g.source.getchar } := by
  obtain ⟨hlast, -⟩ := Stdin.of_unread_cons h
  have hskip : (g.source.scan isspace []).2 = (g.source.getchar.scan isspace []).2 := by
    rw [Stdin.scan_of_pos hlast hc]
    exact Stdin.scan_snd _ _ _ _
  rw [gettok, gettok]
  generalize (g.source.scan isspace []).2 = src at hskip ⊢
  subst hskip
  rfl

theorem gettok_word {g : Lexical (Stdin strtod) V} {c : UInt8} {rest : List UInt8}
    (h : g.source.unread = c :: rest) (hc : isalpha c) :
    ∃ src : Stdin strtod, src.unread = rest.dropWhile isalnum ∧
      gettok g = ((wordLexeme (V := V) (c :: rest.takeWhile isalnum)).token,
        { g with source := src, IdentifierStr := c :: rest.takeWhile isalnum }) := by
  obtain ⟨hlast, hinput⟩ := Stdin.of_unread_cons h
  have hskip : g.source.scan isspace [] = ([], g.source) := Stdin.scan_of_neg
    (by simpa [hlast] using not_isspace_of_isalpha hc) []
  obtain ⟨hword, hrest⟩ := Stdin.scan_spec isalnum [c] g.source.getchar
  rw [Stdin.unread_getchar, hinput] at hword hrest
  refine ⟨_, hrest, ?_⟩
  rw [gettok]
  simp only [hskip]
  split
  · simp_all
  · rename_i d hd
    obtain rfl : c = d := by simpa [hskip, hlast] using hd
    simp only [hc, if_true, hword, wordLexeme, List.singleton_append]
    split
    · rfl
    · split <;> rfl

theorem gettok_number {g : Lexical (Stdin strtod) V} {c : UInt8} {rest : List UInt8}
    (h : g.source.unread = c :: rest) (hc : isnumber c) :
    ∃ src : Stdin strtod, src.unread = rest.dropWhile isnumber ∧
      gettok g = (.tok_number,
        { g with source := src, NumVal := strtod (c :: rest.takeWhile isnumber) }) := by
  obtain ⟨hlast, hinput⟩ := Stdin.of_unread_cons h
  have hskip : g.source.scan isspace [] = ([], g.source) := Stdin.scan_of_neg
    (by simpa [hlast] using not_isspace_of_isnumber hc) []
  obtain ⟨htext, hrest⟩ := Stdin.scan_spec isnumber [c] g.source.getchar
  rw [Stdin.unread_getchar, hinput] at htext hrest
  refine ⟨_, hrest, ?_⟩
  rw [gettok]
  simp only [hskip]
  split
  · simp_all
  · rename_i d hd
    obtain rfl : c = d := by simpa [hskip, hlast] using hd
    simp [not_isalpha_of_isnumber hc, hc, htext]

/-- A comment is skipped up to the character that ends its line; a comment
    without such a character ends the input. -/
theorem gettok_comment {g : Lexical (Stdin strtod) V} {rest : List UInt8}
    (h : g.source.unread = chr '#' :: rest) :
    ∃ src : Stdin strtod, src.unread = rest.dropWhile iscomment ∧
      gettok g = if src.unread = [] then (.tok_eof, { g with source := src })
        else gettok { g with source := src } := by
  obtain ⟨hlast, hinput⟩ := Stdin.of_unread_cons h
  have hskip : g.source.scan isspace [] = ([], g.source) := Stdin.scan_of_neg (by simp [hlast]; decide) []
  have hrest := (Stdin.scan_spec iscomment [] g.source.getchar).2
  rw [Stdin.unread_getchar, hinput] at hrest
  refine ⟨_, hrest, ?_⟩
  rw [gettok]
  simp only [hskip]
  split
  · simp_all
  · rename_i d hd
    obtain rfl : chr '#' = d := by simpa [hskip, hlast] using hd
    have halpha : isalpha (chr '#') = false := by decide
    have hnumber : isnumber (chr '#') = false := by decide
    have hiff : ∀ src : Stdin strtod, src.LastChar = none ↔ src.unread = [] := fun src =>
      ⟨Stdin.unread_eq_nil, Stdin.of_unread_nil⟩
    simp [halpha, hnumber, hiff]

theorem gettok_char {g : Lexical (Stdin strtod) V} {c : UInt8} {rest : List UInt8}
    (h : g.source.unread = c :: rest) (hspace : ¬ isspace c) (halpha : ¬ isalpha c)
    (hnumber : ¬ isnumber c) (hcomment : c ≠ chr '#') :
    gettok g = (.char c, { g with source := g.source.getchar }) := by
  obtain ⟨hlast, -⟩ := Stdin.of_unread_cons h
  have hskip : g.source.scan isspace [] = ([], g.source) := Stdin.scan_of_neg (by simpa [hlast] using hspace) []
  rw [gettok]
  simp only [hskip]
  split
  · simp_all
  · rename_i d hd
    obtain rfl : c = d := by simpa [hskip, hlast] using hd
    simp [halpha, hnumber, hcomment]

theorem drains_nil {g : Lexical (Stdin strtod) V} (h : g.source.unread = []) : Drains g [] :=
  .nil (gettok_eof h) (gettok_eof h)

/-- Successive calls of `gettok` deliver the tokens of the unread bytes, each
    with its name or converted number text, and then `tok_eof` for ever. -/
theorem Lexes.drains {bytes : List UInt8} {ts : List (Lexeme Str)} (h : Lexes bytes ts) :
    ∀ g : Lexical (Stdin strtod) V, g.source.unread = bytes → Drains g (ts.map (Lexeme.convert strtod)) := by
  induction h with
  | nil => exact fun g hg => drains_nil hg
  | space hc h ih =>
    intro g hg
    refine (ih { g with source := g.source.getchar } ?_).congr (gettok_space hg hc)
    simpa using (Stdin.of_unread_cons hg).2
  | @comment body rest d ts hbody hd h ih =>
    intro g hg
    obtain ⟨src, hsrc, heq⟩ := gettok_comment hg
    rw [dropWhile_append_stop hbody (by simpa using hd)] at hsrc
    rw [if_neg (by simp [hsrc])] at heq
    exact (ih { g with source := src } hsrc).congr heq
  | @commentEnd body hbody =>
    intro g hg
    obtain ⟨src, hsrc, heq⟩ := gettok_comment hg
    have hnil : src.unread = [] := by
      rw [hsrc, ← List.append_nil body]
      exact dropWhile_append_stop hbody (by simp)
    rw [if_pos hnil] at heq
    exact .nil heq (gettok_eof hnil)
  | @word c tail rest ts hc htail hrest h ih =>
    intro g hg
    obtain ⟨src, hsrc, heq⟩ := gettok_word hg hc
    rw [dropWhile_append_stop htail hrest] at hsrc
    rw [takeWhile_append_stop htail hrest] at heq
    have htoken : (wordLexeme (c :: tail) : Lexeme V) = (wordLexeme (c :: tail)).convert strtod := by
      unfold wordLexeme
      split_ifs <;> rfl
    refine .cons (htoken ▸ heq) ?_ (ih _ hsrc)
    rw [← htoken]
    unfold wordLexeme
    split_ifs <;> trivial
  | @number c tail rest ts hc htail hrest h ih =>
    intro g hg
    obtain ⟨src, hsrc, heq⟩ := gettok_number hg hc
    rw [dropWhile_append_stop htail hrest] at hsrc
    rw [takeWhile_append_stop htail hrest] at heq
    exact .cons heq rfl (ih _ hsrc)
  | char hspace halpha hnumber hcomment h ih =>
    intro g hg
    refine .cons (gettok_char hg hspace halpha hnumber hcomment) trivial (ih _ ?_)
    simpa using (Stdin.of_unread_cons hg).2

end

end accelerators.kaleidoscope
