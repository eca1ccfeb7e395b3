import Mathlib.Algebra.Field.Rat
import Accelerators.Kaleidoscope.Lexer.Lexes

namespace accelerators.kaleidoscope

/-- Digits with at most one point among them. -/
def Literal (text : Str) : Prop :=
  (∀ c ∈ text, isnumber c) ∧ (∃ c ∈ text, isdigit c) ∧ text.count (chr '.') ≤ 1

theorem literal_iff_all {text : Str} :
    text.all isnumber ∧ text.any isdigit ∧ text.count (chr '.') ≤ 1 ↔ Literal text := by
  rw [Literal, List.all_eq_true, List.any_eq_true]

instance : DecidablePred Literal := fun _ => decidable_of_iff _ literal_iff_all

/-- All digits as one number. -/
def digitsValue (text : Str) : Nat :=
  text.foldl (fun n c => if isdigit c then 10 * n + (c.toNat - (chr '0').toNat) else n) 0

/-- The value of a literal, to the last digit. -/
def decimal (text : Str) : ℚ :=
  digitsValue text / 10 ^ (text.dropWhile (· != chr '.')).countP isdigit

/-- The longest prefix that is a literal. -/
structure LongestLiteral (text subject : Str) : Prop where
  isPrefix : subject <+: text
  literal : Literal subject
  longest : ∀ p, p <+: text → Literal p → p.length ≤ subject.length

variable {V : Type}

/-- `strtod` on texts of digits and points: the longest literal at the start is
    rounded to a `double`, and without one the result is zero. -/
structure Converts (strtod : Str → V) (round : ℚ → V) : Prop where
  subject : ∀ text subject, (∀ c ∈ text, isnumber c) → LongestLiteral text subject →
    strtod text = round (decimal subject)
  zero : ∀ text, (∀ c ∈ text, isnumber c) → (∀ p, p <+: text → ¬ Literal p) → strtod text = round 0

/-- The digits at the start, and those behind one point. -/
def subjectSequence (text : Str) : Str :=
  text.takeWhile isdigit ++
    match text.dropWhile isdigit with
    | [] => []
    | c :: rest => if c = chr '.' then c :: rest.takeWhile isdigit else []

theorem isdigit_point : isdigit (chr '.') = false := rfl

theorem eq_point_of_isnumber {c : UInt8} (h : isnumber c) (hdigit : ¬ isdigit c) : c = chr '.' := by
  simpa [isnumber, hdigit] using h

theorem subjectSequence_digit {c : UInt8} (hc : isdigit c) (text : Str) :
    subjectSequence (c :: text) = c :: subjectSequence text := by
  rw [subjectSequence, List.takeWhile_cons_of_pos hc, List.dropWhile_cons_of_pos hc, List.cons_append]
  rfl

theorem subjectSequence_point (text : Str) :
    subjectSequence (chr '.' :: text) = chr '.' :: text.takeWhile isdigit := by
  have hpoint : ¬ isdigit (chr '.') := by simp [isdigit_point]
  rw [subjectSequence, List.takeWhile_cons_of_neg hpoint, List.dropWhile_cons_of_neg hpoint, List.nil_append]
  exact if_pos rfl

theorem subjectSequence_other {c : UInt8} (hc : ¬ isnumber c) (text : Str) : subjectSequence (c :: text) = [] := by
  simp only [isnumber, Bool.or_eq_true, beq_iff_eq, not_or] at hc
  rw [subjectSequence, List.takeWhile_cons_of_neg hc.1, List.dropWhile_cons_of_neg hc.1, List.nil_append]
  exact if_neg hc.2

theorem subjectSequence_isPrefix (text : Str) : subjectSequence text <+: text := by
  induction text with
  | nil => exact List.prefix_refl []
  | cons c text ih =>
    by_cases hnumber : isnumber c
    · by_cases hdigit : isdigit c
      · rw [subjectSequence_digit hdigit]
        exact List.cons_prefix_cons.mpr ⟨rfl, ih⟩
      · obtain rfl := eq_point_of_isnumber hnumber hdigit
        rw [subjectSequence_point]
        exact List.cons_prefix_cons.mpr ⟨rfl, List.takeWhile_prefix _⟩
    · rw [subjectSequence_other hnumber]
      exact List.nil_prefix

theorem count_point_of_digits {text : Str} (h : ∀ c ∈ text, isdigit c) : text.count (chr '.') = 0 := by
  rw [List.count_eq_zero]
  intro hmem
  have hpoint := h _ hmem
  rw [isdigit_point] at hpoint
  exact Bool.false_ne_true hpoint

theorem count_subjectSequence_le (text : Str) : (subjectSequence text).count (chr '.') ≤ 1 := by
  induction text with
  | nil => exact Nat.zero_le 1
  | cons c text ih =>
    by_cases hnumber : isnumber c
    · by_cases hdigit : isdigit c
      · have hne : c ≠ chr '.' := by
          rintro rfl
          exact Bool.false_ne_true (isdigit_point.symm.trans hdigit)
        rwa [subjectSequence_digit hdigit, List.count_cons_of_ne hne]
      · obtain rfl := eq_point_of_isnumber hnumber hdigit
        have hfraction := count_point_of_digits (List.all_eq_true.mp (List.all_takeWhile (p := isdigit) (l := text)))
        rw [subjectSequence_point, List.count_cons_self, hfraction]
    · rw [subjectSequence_other hnumber]
      exact Nat.zero_le 1

/-- A prefix with one point or none does not go beyond the second point. -/
theorem prefix_subjectSequence {text p : Str} (hpre : p <+: text) (hnumber : ∀ c ∈ p, isnumber c)
    (hcount : p.count (chr '.') ≤ 1) : p <+: subjectSequence text := by
  induction text generalizing p with
  | nil => exact hpre
  | cons c text ih =>
    cases p with
    | nil => exact List.nil_prefix
    | cons d p =>
      obtain ⟨rfl, hrest⟩ := List.cons_prefix_cons.mp hpre
      have htail : ∀ c ∈ p, isnumber c := fun c hc => hnumber c (List.mem_cons_of_mem _ hc)
      by_cases hdigit : isdigit d
      · rw [subjectSequence_digit hdigit]
        have hcount' := (List.count_le_count_cons (a := chr '.') (b := d) (l := p)).trans hcount
        exact List.cons_prefix_cons.mpr ⟨rfl, ih hrest htail hcount'⟩
      · obtain rfl := eq_point_of_isnumber (hnumber d List.mem_cons_self) hdigit
        rw [List.count_cons_self] at hcount
        have hdigits : ∀ c ∈ p, isdigit c := by
          intro c hc
          by_contra hpoint
          obtain rfl := eq_point_of_isnumber (htail c hc) hpoint
          have hpos := List.count_pos_iff.mpr hc
          omega
        rw [subjectSequence_point]
        refine List.cons_prefix_cons.mpr ⟨rfl, ?_⟩
        obtain ⟨rest, rfl⟩ := hrest
        rw [List.takeWhile_append_of_pos hdigits]
        exact List.prefix_append p _

theorem Literal.of_subjectSequence {text p : Str} (hnumber : ∀ c ∈ text, isnumber c) (hpre : p <+: text)
    (hp : Literal p) : LongestLiteral text (subjectSequence text) where
  isPrefix := subjectSequence_isPrefix text
  literal := by
    obtain ⟨hnumbers, ⟨c, hc, hdigit⟩, hcount⟩ := hp
    have hle := prefix_subjectSequence hpre hnumbers hcount
    exact ⟨fun c hc => hnumber c ((subjectSequence_isPrefix text).subset hc), ⟨c, hle.subset hc, hdigit⟩,
      count_subjectSequence_le text⟩
  longest := fun _ hq hliteral => (prefix_subjectSequence hq hliteral.1 hliteral.2.2).length_le

/-- On every text of digits and points, the conversion stops in front of the second
    point and needs a digit before it. -/
theorem Converts.eq {strtod : Str → V} {round : ℚ → V} (h : Converts strtod round) {text : Str}
    (hnumber : ∀ c ∈ text, isnumber c) :
    strtod text = if Literal (subjectSequence text) then round (decimal (subjectSequence text)) else round 0 := by
  split_ifs with hliteral
  · exact h.subject text _ hnumber (hliteral.of_subjectSequence hnumber (subjectSequence_isPrefix text))
  · refine h.zero text hnumber fun p hpre hp => hliteral ?_
    exact (hp.of_subjectSequence hnumber hpre).literal

theorem Literal.subjectSequence_eq {text : Str} (h : Literal text) : subjectSequence text = text :=
  (subjectSequence_isPrefix text).eq_of_length_le
    (prefix_subjectSequence (List.prefix_refl text) h.1 h.2.2).length_le

/-- The conversion with exact values. -/
def strtod (text : Str) : ℚ := if Literal (subjectSequence text) then decimal (subjectSequence text) else 0

theorem strtod_converts : Converts strtod id where
  subject := by
    intro text subject hnumber h
    have hsubject := h.literal.of_subjectSequence hnumber h.isPrefix
    have hle := prefix_subjectSequence h.isPrefix h.literal.1 h.literal.2.2
    obtain rfl := hle.eq_of_length_le (h.longest _ hsubject.isPrefix hsubject.literal)
    exact if_pos hsubject.literal
  zero := fun text _ hnone => if_neg (hnone _ (subjectSequence_isPrefix text))

/-- A text of digits and points is a literal unless it is empty, a single point, or
    has a second point. -/
theorem literal_iff {text : Str} (hnumber : ∀ c ∈ text, isnumber c) (hne : text ≠ []) :
    Literal text ↔ text.count (chr '.') ≤ 1 ∧ text ≠ [chr '.'] := by
  constructor
  · rintro ⟨-, ⟨c, hc, hdigit⟩, hcount⟩
    refine ⟨hcount, ?_⟩
    rintro rfl
    obtain rfl := List.mem_singleton.mp hc
    exact Bool.false_ne_true hdigit
  · rintro ⟨hcount, hpoint⟩
    refine ⟨hnumber, ?_, hcount⟩
    by_contra hdigit
    have hall : ∀ c ∈ text, c = chr '.' := fun c hc =>
      eq_point_of_isnumber (hnumber c hc) fun hd => hdigit ⟨c, hc, hd⟩
    rw [List.eq_replicate_of_mem hall, List.count_replicate_self] at hcount
    have hone : text.length = 1 := Nat.le_antisymm hcount (List.length_pos_iff.mpr hne)
    rw [List.eq_replicate_of_mem hall, hone] at hpoint
    exact hpoint rfl

/-- The input from the next token on. -/
def fromToken (bytes : List UInt8) : List UInt8 :=
  match _h : bytes.dropWhile isspace with
  | [] => []
  | c :: rest => if c = chr '#' then fromToken (rest.dropWhile iscomment) else c :: rest
termination_by bytes.length
decreasing_by
  have hspace := (List.dropWhile_sublist isspace (l := bytes)).length_le
  have hcomment := (List.dropWhile_sublist iscomment (l := rest)).length_le
  rw [_h, List.length_cons] at hspace
  exact Nat.lt_of_le_of_lt hcomment hspace

/-- The digits and points that the next token begins with. -/
def numberRun (bytes : List UInt8) : Str := (fromToken bytes).takeWhile isnumber

section
variable {strtod : Str → V}

/-- The local variable `NumStr` of `gettok`, which a conversion that keeps its
    argument leaves in `NumVal`. -/
def NumStr (g : Lexical (Stdin strtod) V) : Str :=
  let kept : Lexical (Stdin fun text : Str => text) Str :=
    { source := ⟨g.source.LastChar, g.source.input⟩, IdentifierStr := g.IdentifierStr, NumVal := [] }
  (gettok kept).2.NumVal

theorem gettok_spaces (g : Lexical (Stdin strtod) V) :
    ∃ src : Stdin strtod, src.unread = g.source.unread.dropWhile isspace ∧
      gettok g = gettok { g with source := src } := by
  induction hbytes : g.source.unread generalizing g with
  | nil => exact ⟨g.source, hbytes, rfl⟩
  | cons c rest ih =>
    by_cases hc : isspace c
    · have hrest : g.source.getchar.unread = rest := by
        rw [Stdin.unread_getchar]
        exact (Stdin.of_unread_cons hbytes).2
      obtain ⟨src, hsrc, heq⟩ := ih { g with source := g.source.getchar } hrest
      rw [List.dropWhile_cons_of_pos hc]
      exact ⟨src, hsrc, (gettok_space hbytes hc).trans heq⟩
    · rw [List.dropWhile_cons_of_neg hc]
      exact ⟨g.source, hbytes, rfl⟩

theorem gettok_skip_comment {g : Lexical (Stdin strtod) V} {rest : List UInt8}
    (h : g.source.unread = chr '#' :: rest) :
    ∃ src : Stdin strtod, src.unread = rest.dropWhile iscomment ∧ gettok g = gettok { g with source := src } := by
  obtain ⟨src, hsrc, heq⟩ := gettok_comment h
  refine ⟨src, hsrc, ?_⟩
  rw [heq]
  split_ifs with hnil
  · exact (gettok_eof (g := { g with source := src }) hnil).symm
  · rfl

/-- Spaces and comments do not change what `gettok` returns. -/
theorem gettok_fromToken (g : Lexical (Stdin strtod) V) :
    ∃ src : Stdin strtod, src.unread = fromToken g.source.unread ∧ gettok g = gettok { g with source := src } := by
  generalize hbytes : g.source.unread = bytes
  fun_induction fromToken bytes generalizing g with
  | case1 bytes h =>
    obtain ⟨src, hsrc, heq⟩ := gettok_spaces g
    rw [hbytes, h] at hsrc
    exact ⟨src, hsrc, heq⟩
  | case2 bytes rest h ih =>
    obtain ⟨src, hsrc, heq⟩ := gettok_spaces g
    rw [hbytes, h] at hsrc
    obtain ⟨src', hsrc', heq'⟩ := gettok_skip_comment (g := { g with source := src }) hsrc
    obtain ⟨last, hlast, hfinal⟩ := ih { g with source := src' } hsrc'
    exact ⟨last, hlast, (heq.trans heq').trans hfinal⟩
  | case3 bytes c rest h hc =>
    obtain ⟨src, hsrc, heq⟩ := gettok_spaces g
    rw [hbytes, h] at hsrc
    exact ⟨src, hsrc, heq⟩

theorem wordLexeme_token_ne (word : Str) : (wordLexeme word : Lexeme V).token ≠ .tok_number := by
  unfold wordLexeme
  split_ifs <;> simp [Lexeme.token]

theorem fromToken_head_not_isspace (bytes : List UInt8) : ∀ c ∈ (fromToken bytes).head?, ¬ isspace c := by
  fun_induction fromToken bytes with
  | case1 bytes h => simp
  | case2 bytes rest h ih => exact ih
  | case3 bytes c rest h hc =>
    have hnot := List.head?_dropWhile_not isspace bytes
    rw [h] at hnot
    simpa using hnot

theorem fromToken_head_ne_comment (bytes : List UInt8) : ∀ c ∈ (fromToken bytes).head?, c ≠ chr '#' := by
  fun_induction fromToken bytes with
  | case1 bytes h => simp
  | case2 bytes rest h ih => exact ih
  | case3 bytes c rest h hc => simpa using hc

/-- A run of digits and points is always a number, whatever points it has. -/
theorem gettok_numberRun (g : Lexical (Stdin strtod) V) :
    ((gettok g).1 = .tok_number ↔ numberRun g.source.unread ≠ []) ∧
    (numberRun g.source.unread ≠ [] → (gettok g).2.NumVal = strtod (numberRun g.source.unread)) := by
  obtain ⟨src, hsrc, heq⟩ := gettok_fromToken g
  have hspace := fromToken_head_not_isspace g.source.unread
  have hcomment := fromToken_head_ne_comment g.source.unread
  rw [numberRun, heq]
  generalize fromToken g.source.unread = bytes at hsrc hspace hcomment ⊢
  cases bytes with
  | nil => simp [gettok_eof (g := { g with source := src }) hsrc]
  | cons c rest =>
    by_cases hnumber : isnumber c
    · obtain ⟨src', -, hnext⟩ := gettok_number (g := { g with source := src }) hsrc hnumber
      simp [hnext, List.takeWhile_cons_of_pos hnumber]
    · rw [List.takeWhile_cons_of_neg hnumber]
      have hother : (gettok { g with source := src }).1 ≠ .tok_number := by
        by_cases halpha : isalpha c
        · obtain ⟨src', -, hnext⟩ := gettok_word (g := { g with source := src }) hsrc halpha
          rw [hnext]
          exact wordLexeme_token_ne _
        · rw [gettok_char (g := { g with source := src }) hsrc (hspace c rfl) halpha hnumber (hcomment c rfl)]
          simp
      simpa using hother

theorem NumStr_eq (g : Lexical (Stdin strtod) V) (hrun : numberRun g.source.unread ≠ []) :
    NumStr g = numberRun g.source.unread :=
  (gettok_numberRun (_ : Lexical (Stdin fun text : Str => text) Str)).2 hrun

end

section
variable {strtod : Str → V} {round : ℚ → V}

/-- A number token has a literal for its text and the value of all of it, and a run
    of digits and points that is no literal is not a number token. -/
structure LiteralsOnly (round : ℚ → V) (g : Lexical (Stdin strtod) V) : Prop where
  literal : (gettok g).1 = .tok_number → Literal (NumStr g) ∧ (gettok g).2.NumVal = round (decimal (NumStr g))
  malformed : numberRun g.source.unread ≠ [] → ¬ Literal (numberRun g.source.unread) →
    (gettok g).1 ≠ .tok_number

theorem isnumber_of_mem_numberRun (bytes : List UInt8) : ∀ c ∈ numberRun bytes, isnumber c :=
  List.all_eq_true.mp List.all_takeWhile

/-- Exactly the runs with a second point, and the single point, are lexed as
    numbers that they are not. -/
theorem literalsOnly_iff (hconverts : Converts strtod round) (g : Lexical (Stdin strtod) V) :
    LiteralsOnly round g ↔
      (numberRun g.source.unread).count (chr '.') ≤ 1 ∧ numberRun g.source.unread ≠ [chr '.'] := by
  obtain ⟨htoken, hvalue⟩ := gettok_numberRun g
  by_cases hrun : numberRun g.source.unread = []
  · rw [hrun]
    refine iff_of_true ⟨fun hnumber => absurd hrun (htoken.mp hnumber), fun hne => absurd hrun hne⟩ ?_
    simp
  · rw [← literal_iff (isnumber_of_mem_numberRun _) hrun]
    constructor
    · intro h
      have hliteral := (h.literal (htoken.mpr hrun)).1
      rwa [NumStr_eq g hrun] at hliteral
    · intro hliteral
      refine ⟨fun _ => ?_, fun _ hnot => absurd hliteral hnot⟩
      rw [NumStr_eq g hrun, hvalue hrun, hconverts.eq (isnumber_of_mem_numberRun _), hliteral.subjectSequence_eq,
        if_pos hliteral]
      exact ⟨hliteral, rfl⟩

end

theorem fromToken_eq {bytes rest : List UInt8} {c : UInt8} (h : bytes.dropWhile isspace = c :: rest)
    (hc : c ≠ chr '#') : fromToken bytes = c :: rest := by
  fun_cases fromToken bytes with
  | case1 hnil => exact absurd (h.symm.trans hnil) (List.cons_ne_nil c rest)
  | case2 rest' hcomment => exact absurd (List.cons.inj (h.symm.trans hcomment)).1 hc
  | case3 d rest' hrest hd => exact hrest.symm.trans h

theorem decimal_on_spaces : Converts strtod id ∧
    LiteralsOnly id (⟨⟨some (chr ' '), str " 1.25 "⟩, [], 0⟩ : Lexical (Stdin strtod) ℚ) := by
  refine ⟨strtod_converts, (literalsOnly_iff strtod_converts _).mpr ?_⟩
  have hrun : numberRun (str "  1.25 ") = str "1.25" := by
    have hspaces : (str "  1.25 ").dropWhile isspace = chr '1' :: str ".25 " := rfl
    rw [numberRun, fromToken_eq hspaces (by decide)]
    rfl
  rw [show Stdin.unread _ = str "  1.25 " from rfl, hrun]
  decide

/-- The last digit is dropped. -/
theorem two_points_lexed : let g : Lexical (Stdin strtod) ℚ := ⟨⟨some (chr ' '), str "1.2.3"⟩, [], 0⟩
    (gettok g).1 = .tok_number ∧ NumStr g = str "1.2.3" ∧ (gettok g).2.NumVal = 6 / 5 ∧
      ¬ LiteralsOnly id g := by
  intro g
  have hrun : numberRun g.source.unread = str "1.2.3" := by
    have hspaces : g.source.unread.dropWhile isspace = chr '1' :: str ".2.3" := rfl
    rw [numberRun, fromToken_eq hspaces (by decide)]
    rfl
  have hne : numberRun g.source.unread ≠ [] := by
    rw [hrun]
    decide
  have htoken := (gettok_numberRun g).1.mpr hne
  refine ⟨htoken, (NumStr_eq g hne).trans hrun, ?_, fun h => ?_⟩
  · have hvalue : strtod (str "1.2.3") = decimal (str "1.2") := if_pos (by decide)
    rw [(gettok_numberRun g).2 hne, hrun, hvalue]
    decide +kernel
  · refine h.malformed hne ?_ htoken
    rw [hrun]
    decide

end accelerators.kaleidoscope
