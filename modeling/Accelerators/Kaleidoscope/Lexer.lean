import Accelerators.Kaleidoscope.Globals

namespace accelerators.kaleidoscope

/-- The character classes of the C locale. They are false of `EOF`. -/
def isspace (c : UInt8) : Bool := c == chr ' ' || (9 ≤ c && c ≤ 13)
def isdigit (c : UInt8) : Bool := chr '0' ≤ c && c ≤ chr '9'
def isalpha (c : UInt8) : Bool := (chr 'A' ≤ c && c ≤ chr 'Z') || (chr 'a' ≤ c && c ≤ chr 'z')
def isalnum (c : UInt8) : Bool := isalpha c || isdigit c

/-- The characters of a number text. -/
def isnumber (c : UInt8) : Bool := isdigit c || c == chr '.'

/-- The characters that do not end a comment. -/
def iscomment (c : UInt8) : Bool := c != chr '\n' && c != chr '\r'

variable {V : Type}

/-- The static variable `LastChar` of `gettok`, `none` for `EOF`, and the input
    that `getchar` has not returned yet. The conversion `strtod` of number texts
    stays a parameter. -/
structure Stdin (strtod : Str → V) where
  LastChar : Option UInt8
  input : List UInt8

variable {strtod : Str → V}

/-- `LastChar = getchar()`. -/
def Stdin.getchar (src : Stdin strtod) : Stdin strtod :=
  match src.input with
  | [] => ⟨none, []⟩
  | c :: rest => ⟨some c, rest⟩

/-- The bytes that no token has consumed. -/
def Stdin.unread (src : Stdin strtod) : List UInt8 :=
  match src.LastChar with
  | none => []
  | some c => c :: src.input

@[simp] theorem Stdin.unread_getchar (src : Stdin strtod) : src.getchar.unread = src.input := by
  unfold getchar
  split <;> simp_all [unread]

theorem Stdin.unread_eq_cons {src : Stdin strtod} {c : UInt8} (h : src.LastChar = some c) :
    src.unread = c :: src.input := by
  simp [unread, h]

theorem Stdin.unread_eq_nil {src : Stdin strtod} (h : src.LastChar = none) : src.unread = [] := by
  simp [unread, h]

/-- The scanning loop `while (p(LastChar)) { text += LastChar; LastChar = getchar(); }`. -/
def Stdin.scan (p : UInt8 → Bool) (text : Str) (src : Stdin strtod) : Str × Stdin strtod :=
  match _h : src.LastChar with
  | none => (text, src)
  | some c => if p c then src.getchar.scan p (text ++ [c]) else (text, src)
termination_by src.unread.length
decreasing_by simp [Stdin.unread_eq_cons _h]

theorem Stdin.scan_of_pos {p : UInt8 → Bool} {src : Stdin strtod} {c : UInt8} (h : src.LastChar = some c)
    (hp : p c) (text : Str) : src.scan p text = src.getchar.scan p (text ++ [c]) := by
  rw [scan]
  split
  · simp_all
  · simp_all

theorem Stdin.scan_of_neg {p : UInt8 → Bool} {src : Stdin strtod}
    (h : ∀ c ∈ src.LastChar, ¬ p c) (text : Str) : src.scan p text = (text, src) := by
  rw [scan]
  split
  · rfl
  · rename_i c hc
    rw [if_neg (h c hc)]

/-- A scanning loop takes the longest prefix of characters in its class. -/
theorem Stdin.scan_spec (p : UInt8 → Bool) (text : Str) (src : Stdin strtod) :
    (src.scan p text).1 = text ++ src.unread.takeWhile p ∧
      (src.scan p text).2.unread = src.unread.dropWhile p := by
  fun_induction Stdin.scan p text src with
  | case1 text src h => simp [unread_eq_nil h]
  | case2 text src c h hp ih =>
    rw [unread_eq_cons h, List.takeWhile_cons_of_pos hp, List.dropWhile_cons_of_pos hp]
    simpa using ih
  | case3 text src c h hp => simp [unread_eq_cons h, hp]

/-- `gettok`. The comment loop ends at the end of a line or of the input, and
    only in the first case there is more to read. -/
def gettok (g : Lexical (Stdin strtod) V) : Token × Lexical (Stdin strtod) V :=
  let src := (g.source.scan isspace []).2
  match _h : src.LastChar with
  | none => (.tok_eof, { g with source := src })
  | some c =>
    if isalpha c then
      let (IdentifierStr, src) := src.getchar.scan isalnum [c]
      let g := { g with source := src, IdentifierStr }
      if IdentifierStr = str "def" then (.tok_def, g)
      else if IdentifierStr = str "extern" then ( Token.tok_extern, g)
      else (.tok_identifier, g)
    else if isnumber c then
      let (NumStr, src) := src.getchar.scan isnumber [c]
      (.tok_number, { g with source := src, NumVal := strtod NumStr })
    else if c = chr '#' then
      let src := (src.getchar.scan iscomment []).2
      if src.LastChar = none then (.tok_eof, { g with source := src })
      else gettok { g with source := src }
    else (.char c, { g with source := src.getchar })
termination_by g.source.unread.length
decreasing_by
  have hskip := (Stdin.scan_spec isspace [] g.source).2
  have hcomment := (Stdin.scan_spec iscomment [] (g.source.scan isspace []).2.getchar).2
  rw [Stdin.unread_getchar] at hcomment
  have h1 := (List.dropWhile_sublist isspace (l := g.source.unread)).length_le
  have h2 := (List.dropWhile_sublist iscomment (l := (g.source.scan isspace []).2.input)).length_le
  have h3 : (g.source.scan isspace []).2.unread.length = (g.source.scan isspace []).2.input.length + 1 :=
    congrArg List.length (Stdin.unread_eq_cons _h)
  rw [hcomment]
  rw [← hskip] at h1
  omega

instance : TokenSource (Stdin strtod) V where
  gettok := gettok

end accelerators.kaleidoscope
