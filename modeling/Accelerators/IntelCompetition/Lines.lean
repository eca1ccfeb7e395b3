import Mathlib.Data.List.TakeWhile
import Accelerators.Kaleidoscope.Lexer.Lexes
import Accelerators.IntelCompetition.Parse

open accelerators.kaleidoscope (chr isspace isdigit isnumber not_isspace_of_isnumber)

namespace accelerators.intel_competition

/-- A number as it is written in the input file. -/
def decimal (x : Int32) : List UInt8 := (toString x.toInt).toList.map chr

def digits (n : Nat) : List UInt8 := (Nat.toDigits 10 n).map chr

theorem decimal_eq (x : Int32) :
    decimal x = if 0 ≤ x.toInt then digits x.toInt.toNat else chr '-' :: digits (-x.toInt).toNat := by
  rw [decimal, Int.toString_eq_repr, Int.repr_eq_if]
  split_ifs
  · rw [Nat.toList_repr, digits]
  · rw [String.toList_append, Nat.toList_repr, List.map_append, digits]
    rfl

theorem digit_bounds {n : Nat} {c : Char} (hc : c ∈ Nat.toDigits 10 n) : 48 ≤ c.toNat ∧ c.toNat ≤ 57 :=
  Char.isDigit_iff_toNat.mp (Nat.isDigit_of_mem_toDigits (by decide) (by decide) hc)

theorem toNat_chr {n : Nat} {c : Char} (hc : c ∈ Nat.toDigits 10 n) : (chr c).toNat = c.toNat := by
  have hlt : c.toNat < 256 := (digit_bounds hc).2.trans_lt (by decide)
  exact Nat.mod_eq_of_lt hlt

theorem isdigit_of_mem_digits {n : Nat} {c : UInt8} (hc : c ∈ digits n) : isdigit c = true := by
  obtain ⟨d, hd, rfl⟩ := List.mem_map.mp hc
  obtain ⟨hlower, hupper⟩ := digit_bounds hd
  rw [isdigit, Bool.and_eq_true, decide_eq_true_iff, decide_eq_true_iff, UInt8.le_iff_toNat_le, UInt8.le_iff_toNat_le,
    toNat_chr hd]
  exact ⟨hlower, hupper⟩

theorem number_digits (n : Nat) : number (digits n) = n := by
  have htake : (digits n).takeWhile isdigit = digits n :=
    List.takeWhile_eq_self_iff.mpr fun c hc => isdigit_of_mem_digits hc
  rw [number, htake, digits, List.foldl_map]
  have hread := Nat.ofDigitChars_ten_toDigits (n := n)
  rw [Nat.ofDigitChars_eq_foldl] at hread
  conv_rhs => rw [← hread]
  apply List.foldl_ext
  intro sofar c hc
  rw [toNat_chr hc]
  rfl

theorem not_isspace_of_isdigit {c : UInt8} (hc : isdigit c = true) : isspace c = false := by
  apply Bool.eq_false_of_not_eq_true
  exact not_isspace_of_isnumber (by simp [isnumber, hc])

theorem atoi_digits (n : Nat) : atoi (digits n) = Int32.ofNat n := by
  have hread := number_digits n
  cases hdigits : digits n with
  | nil => exact (Nat.toDigits_ne_nil (List.map_eq_nil_iff.mp hdigits)).elim
  | cons c text =>
    have hc : isdigit c = true := isdigit_of_mem_digits (by rw [hdigits]; exact List.mem_cons_self ..)
    have hminus : c ≠ chr '-' := by
      rintro rfl
      exact absurd hc (by decide)
    have hplus : c ≠ chr '+' := by
      rintro rfl
      exact absurd hc (by decide)
    rw [atoi, List.dropWhile_cons, not_isspace_of_isdigit hc]
    simp only [Bool.false_eq_true, if_false, hminus, hplus]
    rw [← hdigits, hread]

theorem atoi_decimal (x : Int32) : atoi (decimal x) = x := by
  rw [decimal_eq]
  split_ifs with hsign
  · rw [atoi_digits, ← Int32.ofInt_eq_ofNat, Int.toNat_of_nonneg hsign, Int32.ofInt_toInt]
  · have hskip : (chr '-' :: digits (-x.toInt).toNat).dropWhile isspace = chr '-' :: digits (-x.toInt).toNat := rfl
    rw [atoi, hskip]
    simp only [if_true]
    rw [number_digits, Int.toNat_of_nonneg (by omega), Int.neg_neg, Int32.ofInt_toInt]

theorem isseparator_of_mem_digits {n : Nat} : ∀ c ∈ digits n, isseparator c = false := by
  intro c hc
  have hdigit := isdigit_of_mem_digits hc
  have hspace : c ≠ chr ' ' := by
    rintro rfl
    exact absurd hdigit (by decide)
  have hzero : c ≠ 0 := by
    rintro rfl
    exact absurd hdigit (by decide)
  simp [isseparator, hspace, hzero]

theorem isseparator_of_mem_decimal (x : Int32) : ∀ c ∈ decimal x, isseparator c = false := by
  rw [decimal_eq]
  split_ifs
  · exact isseparator_of_mem_digits
  · exact List.forall_mem_cons.mpr ⟨rfl, isseparator_of_mem_digits⟩

theorem length_digits_le {n : Nat} (h : n ≤ 2 ^ 31) : (digits n).length ≤ 10 := by
  rw [digits, List.length_map, Nat.length_toDigits_le_iff (by decide) (by decide)]
  omega

theorem length_decimal_le (x : Int32) : (decimal x).length ≤ 15 := by
  have hlower := x.le_toInt
  have hupper := x.toInt_lt
  rw [decimal_eq]
  split_ifs
  · exact (length_digits_le (by omega)).trans (by decide)
  · rw [List.length_cons]
    exact (Nat.succ_le_succ (length_digits_le (by omega))).trans (by decide)

theorem mem_intercalate {α : Type} {x c : α} {fs : List (List α)} (hc : c ∈ [x].intercalate fs) :
    c = x ∨ ∃ f ∈ fs, c ∈ f := by
  induction fs with
  | nil => exact (List.not_mem_nil hc).elim
  | cons f fs ih =>
    by_cases hlast : fs = []
    · subst hlast
      rw [List.intercalate_singleton] at hc
      exact .inr ⟨f, List.mem_cons_self .., hc⟩
    · rw [List.intercalate_cons_of_ne_nil hlast, List.mem_append, List.mem_append, List.mem_singleton] at hc
      obtain (hc | rfl) | hc := hc
      · exact .inr ⟨f, List.mem_cons_self .., hc⟩
      · exact .inl rfl
      · obtain heq | ⟨g, hg, hc⟩ := ih hc
        · exact .inl heq
        · exact .inr ⟨g, List.mem_cons_of_mem f hg, hc⟩

/-- The six numbers in the order of the input file. -/
def texts (p : Parameters) : List (List UInt8) :=
  [decimal p.M, decimal p.N, decimal p.seed0, decimal p.a, decimal p.b, decimal p.m]

theorem mem_texts {p : Parameters} {f : List UInt8} (hf : f ∈ texts p) : ∃ x, f = decimal x := by
  simp only [texts, List.mem_cons, List.not_mem_nil, or_false] at hf
  obtain rfl | rfl | rfl | rfl | rfl | rfl := hf <;> exact ⟨_, rfl⟩

theorem notMem_of_isseparator {f : List UInt8} {c : UInt8} (hf : ∀ c ∈ f, isseparator c = false)
    (hc : isseparator c = true) : c ∉ f := by
  intro hmem
  rw [hf c hmem] at hc
  cases hc

/-- The line of a test. -/
def line (p : Parameters) : CString where
  bytes := [chr ' '].intercalate (texts p)
  terminated := by
    intro hzero
    obtain heq | ⟨f, hf, hmem⟩ := mem_intercalate hzero
    · exact absurd heq (by decide)
    · obtain ⟨x, rfl⟩ := mem_texts hf
      exact notMem_of_isseparator (isseparator_of_mem_decimal x) rfl hmem

theorem fields_line (p : Parameters) : fields (line p) = texts p := by
  apply List.splitOn_intercalate
  · intro f hf
    obtain ⟨x, rfl⟩ := mem_texts hf
    exact notMem_of_isseparator (isseparator_of_mem_decimal x) rfl
  · exact List.cons_ne_nil _ _

theorem parse_of_line (temp : Vector UInt8 16) (p : Parameters) : parse temp (line p) = .ok p := by
  have hlengths : ∀ f ∈ fields (line p), f.length ≤ 15 := by
    intro f hf
    rw [fields_line] at hf
    obtain ⟨x, rfl⟩ := mem_texts hf
    exact length_decimal_le x
  rw [parse_of_fields temp (fields_line p) hlengths]
  simp only [atoi_decimal]

/-- What was written is read back, and a result is the number of its own field,
    whatever the buffer held before. -/
theorem parse_line (temp : Vector UInt8 16) : (∀ p : Parameters, parse temp (line p) = .ok p) ∧
    ∀ (s : CString) (M N seed0 a b m : List UInt8), s.bytes = [chr ' '].intercalate [M, N, seed0, a, b, m] →
      (∀ f ∈ [M, N, seed0, a, b, m], f ≠ [] ∧ chr ' ' ∉ f ∧ f.length ≤ 15) →
      parse temp s = .ok ⟨atoi M, atoi N, atoi seed0, atoi a, atoi b, atoi m⟩ := by
  refine ⟨parse_of_line temp, fun s M N seed0 a b m hbytes hshape => ?_⟩
  have hfields : fields s = [M, N, seed0, a, b, m] := by
    rw [fields, hbytes]
    exact List.splitOn_intercalate _ (fun f hf => (hshape f hf).2.1) (List.cons_ne_nil _ _)
  apply parse_of_fields temp hfields
  intro f hf
  rw [hfields] at hf
  exact (hshape f hf).2.2

end accelerators.intel_competition
