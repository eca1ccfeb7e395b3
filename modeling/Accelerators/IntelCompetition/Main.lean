import Accelerators.IntelCompetition.Fill

open accelerators.kaleidoscope (chr isspace isdigit)

namespace accelerators.intel_competition

/-- What ends the program before `main` returns. -/
inductive Failure where
  | undefined (fault : Fault)
  | bad_array_new_length

def newline : UInt8 := chr '\n'

/-- What a function of the C library sees of the bytes. -/
def cstring (bytes : List UInt8) : CString where
  bytes := bytes.takeWhile (· != 0)
  terminated := fun hzero => absurd (List.mem_takeWhile_imp hzero) (by decide)

/-- A stream that has been opened for reading, and whether it still can be read. -/
structure ifstream where
  source : List UInt8
  good : Bool

/-- `input.getline(s, n)`. A line of `n` bytes or more is cut off and is the last that is
    read, as is one that the file ends in. -/
def ifstream.getline (n : Nat) (input : ifstream) : CString × ifstream :=
  if input.good then
    let line := input.source.takeWhile (· != newline)
    if line.length < n then
      match input.source.dropWhile (· != newline) with
      | [] => (cstring line, ⟨[], false⟩)
      | _ :: rest => (cstring line, ⟨rest, true⟩)
    else (cstring (line.take (n - 1)), ⟨input.source.drop (n - 1), false⟩)
  else (cstring [], input)

/-- The number at the begin of a text, of any size. -/
def signed (nptr : List UInt8) : Int :=
  match nptr.dropWhile isspace with
  | [] => 0
  | c :: text =>
    if c = chr '-' then -number text
    else if c = chr '+' then number text
    else number (c :: text)

/-- `atoi` of a text that may have more digits than a `long`. -/
def atoiLong (nptr : List UInt8) : Int32 := Int32.ofInt (max (-2 ^ 63) (min (signed nptr) (2 ^ 63 - 1)))

/-- `new int *[M]`, and `new int[N]` for every row. -/
def allocate (M N : Int) : Except Failure Unit :=
  if M < 0 ∨ 0 < M ∧ N < 0 then .error .bad_array_new_length else .ok ()

def utf8 (s : String) : List UInt8 := s.toUTF8.data.toList

/-- The line of a test and its matrix, as they are printed. -/
def printed (s : CString) (A : List (List Int)) : List UInt8 :=
  utf8 "\nВходные параметры : " ++ s.bytes ++ [newline] ++
    A.flatMap (fun row => newline :: row.flatMap fun x => chr ' ' :: (toString x).toList.map chr) ++ [newline]

/-- The body of the loop over the tests, with the line that it has read. -/
def body (temp : Vector UInt8 16) (s : CString) : Except Failure (List UInt8) := do
  let p ← (parse temp s).mapError .undefined
  allocate p.M.toInt p.N.toInt
  let A ← (fill p).mapError .undefined
  pure (printed s A)

def bLen : Nat := 64

/-- The loop from the test number `k` on, with `n` tests to go. Every call of `parse`
    has a `temp` of its own. -/
def loop (temp : Nat → Vector UInt8 16) : (n k : Nat) → ifstream → Except Failure (List UInt8)
  | 0, _, _ => pure []
  | n + 1, k, input => do
    let (s, input) := input.getline bLen
    let out ← body (temp k) s
    let rest ← loop temp n (k + 1) input
    pure (out ++ rest)

/-- What `main` returns and prints. There is no file if it cannot be opened. -/
def main (temp : Nat → Vector UInt8 16) (file : Option (List UInt8)) : Except Failure (Int × List UInt8) :=
  match file with
  | none => pure (1, utf8 "Ошибка открытия файла\n")
  | some source => do
    let (s, input) := (⟨source, true⟩ : ifstream).getline bLen
    let C := atoiLong s.bytes
    let out ← loop temp C.toInt.toNat 0 input
    pure (0, out)

/-- What the line of a test gets printed, with the average that `fill` takes off. -/
def Test.printed (t : Test) (average : Int) : List UInt8 :=
  intel_competition.printed (line t.toParameters) (t.generated.map fun row => row.map fun x => x - average)

theorem cstring_eq (s : CString) : cstring s.bytes = s := by
  obtain ⟨bytes, hzero⟩ := s
  have hall : bytes.takeWhile (· != 0) = bytes :=
    List.takeWhile_eq_self_iff.mpr fun c hc => bne_iff_ne.mpr fun heq => hzero (heq ▸ hc)
  simp [cstring, hall]

/-- A stream where a line has ended. -/
def behind : List UInt8 → ifstream
  | [] => ⟨[], false⟩
  | _ :: rest => ⟨rest, true⟩

theorem getline_eq {s : CString} {rest : List UInt8} (hline : newline ∉ s.bytes) (hlength : s.bytes.length < bLen)
    (hrest : ∀ c ∈ rest.head?, c = newline) :
    (⟨s.bytes ++ rest, true⟩ : ifstream).getline bLen = (s, behind rest) := by
  have hpass : ∀ c ∈ s.bytes, (c != newline) = true := fun c hc => bne_iff_ne.mpr fun heq => hline (heq ▸ hc)
  have htake : rest.takeWhile (· != newline) = [] := by
    cases rest with
    | nil => rfl
    | cons c rest => rw [List.takeWhile_cons_of_neg (by simp [hrest c rfl])]
  have hdrop : rest.dropWhile (· != newline) = rest := by
    cases rest with
    | nil => rfl
    | cons c rest => rw [List.dropWhile_cons_of_neg (by simp [hrest c rfl])]
  simp only [ifstream.getline, if_true, List.takeWhile_append_of_pos hpass, List.dropWhile_append_of_pos hpass, htake,
    hdrop, List.append_nil, hlength, cstring_eq]
  cases rest <;> rfl

theorem newline_notMem_digits (n : Nat) : newline ∉ digits n :=
  fun hmem => absurd (isdigit_of_mem_digits hmem) (by decide)

theorem newline_notMem_decimal (x : Int32) : newline ∉ decimal x := by
  rw [decimal_eq]
  split_ifs
  · exact newline_notMem_digits _
  · exact List.not_mem_cons_of_ne_of_not_mem (by decide) (newline_notMem_digits _)

theorem newline_notMem_line (p : Parameters) : newline ∉ (line p).bytes := by
  intro hmem
  obtain heq | ⟨f, hf, hmem⟩ := mem_intercalate hmem
  · exact absurd heq (by decide)
  · obtain ⟨x, rfl⟩ := mem_texts hf
    exact newline_notMem_decimal x hmem

theorem length_decimal_of_limits {x : Int32} (hx : 1 ≤ x.toInt ∧ x.toInt ≤ 20000) : (decimal x).length ≤ 5 := by
  rw [decimal_eq, if_pos (by omega), digits, List.length_map, Nat.length_toDigits_le_iff (by decide) (by decide)]
  omega

theorem Test.length_line (t : Test) : (line t.toParameters).bytes.length < bLen := by
  have hlength : ∀ x ∈ [t.M, t.N, t.seed0, t.a, t.b, t.m], (decimal x).length ≤ 5 :=
    fun x hx => length_decimal_of_limits (t.limits x hx)
  simp only [List.forall_mem_cons] at hlength
  simp [line, texts, List.intercalate, bLen]
  omega

theorem signed_digits (n : Nat) : signed (digits n) = n := by
  have hread := number_digits n
  cases hdigits : digits n with
  | nil => exact (Nat.toDigits_ne_nil (List.map_eq_nil_iff.mp hdigits)).elim
  | cons c text =>
    have hc : isdigit c = true := isdigit_of_mem_digits (by rw [hdigits]; exact List.mem_cons_self ..)
    have hminus : c ≠ chr '-' := by
      rintro rfl
      exact absurd hc (by decide)
    have hplus : c ≠ chr '+' := by
      rintro rfl
      exact absurd hc (by decide)
    rw [signed, List.dropWhile_cons, not_isspace_of_isdigit hc]
    simp only [Bool.false_eq_true, if_false, hminus, hplus]
    rw [← hdigits, hread]

theorem atoiLong_digits {n : Nat} (hn : n < 2 ^ 31) : (atoiLong (digits n)).toInt.toNat = n := by
  have hsigned := signed_digits n
  have hlimits : max (-2 ^ 63) (min (signed (digits n)) (2 ^ 63 - 1)) = n := by omega
  rw [atoiLong, hlimits, Int32.toInt_ofInt_of_le (by omega) (by omega), Int.toNat_natCast]

theorem Test.allocate_eq (t : Test) : allocate t.M.toInt t.N.toInt = .ok () := by
  obtain ⟨hM, -⟩ := t.limits t.M (by simp)
  obtain ⟨hN, -⟩ := t.limits t.N (by simp)
  exact if_neg (by omega)

theorem Test.body_ok (t : Test) (temp : Vector UInt8 16) (hlt : t.total < 2 ^ 31) :
    ∃ average, mean t.total t.M.toInt t.N.toInt = .ok average ∧
      body temp (line t.toParameters) = .ok (t.printed average) := by
  obtain ⟨average, hmean, hfill⟩ := t.fill_ok hlt
  refine ⟨average, hmean, ?_⟩
  rw [body, parse_of_line]
  simp only [Except.mapError, bind, Except.bind]
  rw [t.allocate_eq]
  simp only
  rw [hfill]
  rfl

theorem Test.body_error (t : Test) (temp : Vector UInt8 16) (hle : 2 ^ 31 ≤ t.total) :
    body temp (line t.toParameters) = .error (.undefined .overflow) := by
  rw [body, parse_of_line]
  simp only [Except.mapError, bind, Except.bind]
  rw [t.allocate_eq]
  simp only
  rw [t.fill_error hle]

/-- The lines of tests, each behind a line end. -/
def testLines (tests : List Test) : List UInt8 := tests.flatMap fun t => newline :: (line t.toParameters).bytes

/-- The input file of the ReadMe, without a line end after the last test. -/
def fileText (tests : List Test) : List UInt8 := digits tests.length ++ testLines tests

/-- The averages that `fill` takes off. -/
def Averages : List Test → List Int → Prop :=
  List.Forall₂ fun t average => mean t.total t.M.toInt t.N.toInt = .ok average

section
variable (temp : Nat → Vector UInt8 16) {tests : List Test} {rest : List UInt8}
  (hrest : ∀ c ∈ rest.head?, c = newline)
include hrest

theorem head_testLines (tests : List Test) : ∀ c ∈ (testLines tests ++ rest).head?, c = newline := by
  cases tests with
  | nil => exact hrest
  | cons t tests => simp [testLines]

theorem loop_cons (t : Test) (k : Nat) :
    loop temp (t :: tests).length k (behind (testLines (t :: tests) ++ rest)) = (do
      let out ← body (temp k) (line t.toParameters)
      let outs ← loop temp tests.length (k + 1) (behind (testLines tests ++ rest))
      pure (out ++ outs)) := by
  have hgetline := getline_eq (newline_notMem_line t.toParameters) t.length_line (head_testLines hrest tests)
  rw [testLines, List.flatMap_cons, List.append_assoc, List.cons_append, behind, List.length_cons, loop, ← testLines,
    hgetline]

theorem loop_ok (hlt : ∀ t ∈ tests, t.total < 2 ^ 31) (k : Nat) : ∃ averages, Averages tests averages ∧
    loop temp tests.length k (behind (testLines tests ++ rest)) =
      .ok (List.zipWith Test.printed tests averages).flatten := by
  induction tests generalizing k with
  | nil => exact ⟨[], .nil, rfl⟩
  | cons t tests ih =>
    obtain ⟨ht, htests⟩ := List.forall_mem_cons.mp hlt
    obtain ⟨average, hmean, hbody⟩ := t.body_ok (temp k) ht
    obtain ⟨averages, hmeans, hloop⟩ := ih htests (k + 1)
    refine ⟨average :: averages, .cons hmean hmeans, ?_⟩
    rw [loop_cons temp hrest, hbody, hloop]
    rfl

theorem loop_error (hle : ∃ t ∈ tests, 2 ^ 31 ≤ t.total) (k : Nat) :
    loop temp tests.length k (behind (testLines tests ++ rest)) = .error (.undefined .overflow) := by
  induction tests generalizing k with
  | nil => simp at hle
  | cons t tests ih =>
    rw [loop_cons temp hrest]
    by_cases ht : t.total < 2 ^ 31
    · obtain ⟨average, -, hbody⟩ := t.body_ok (temp k) ht
      have htests : ∃ t ∈ tests, 2 ^ 31 ≤ t.total := by
        obtain ⟨t', hmem, hle⟩ := hle
        obtain rfl | hmem := List.mem_cons.mp hmem
        · omega
        · exact ⟨t', hmem, hle⟩
      rw [hbody, ih htests]
      rfl
    · rw [t.body_error (temp k) (Int.not_lt.mp ht)]
      rfl

theorem main_eq (hcount : tests.length < 2 ^ 31) : main temp (some (fileText tests ++ rest)) =
    (loop temp tests.length 0 (behind (testLines tests ++ rest))).map (Prod.mk 0) := by
  have hdigits : (digits tests.length).length < bLen :=
    (length_digits_le hcount.le).trans_lt (by decide)
  have hgetline := getline_eq (s := ⟨digits tests.length, ?_⟩) (newline_notMem_digits _) hdigits
    (head_testLines hrest tests)
  · rw [main, fileText, List.append_assoc]
    simp only [hgetline, atoiLong_digits hcount]
    cases loop temp tests.length 0 (behind (testLines tests ++ rest)) <;> rfl
  · intro hzero
    exact absurd (isdigit_of_mem_digits hzero) (by decide)

end

/-- For an input file as the ReadMe describes it, whatever follows in further lines,
    the program prints the matrices of all tests, unless the sum of the numbers of
    some test is too large for an `int`. -/
theorem main_prints (temp : Nat → Vector UInt8 16) (tests : List Test) (hcount : tests.length < 2 ^ 31)
    (rest : List UInt8) (hrest : ∀ c ∈ rest.head?, c = newline) :
    ((∀ t ∈ tests, t.total < 2 ^ 31) → ∃ averages, Averages tests averages ∧
      main temp (some (fileText tests ++ rest)) = .ok (0, (List.zipWith Test.printed tests averages).flatten)) ∧
    ((∃ t ∈ tests, 2 ^ 31 ≤ t.total) →
      main temp (some (fileText tests ++ rest)) = .error (.undefined .overflow)) := by
  rw [main_eq temp hrest hcount]
  constructor
  · intro hlt
    obtain ⟨averages, hmeans, hloop⟩ := loop_ok temp hrest hlt 0
    exact ⟨averages, hmeans, by rw [hloop]; rfl⟩
  · intro hle
    rw [loop_error temp hrest hle 0]
    rfl

/-- One row, of the numbers `0` and `1`. -/
def oneRow : Test where
  M := 1
  N := 2
  seed0 := 2
  a := 1
  b := 1
  m := 3
  limits := by
    simp only [List.forall_mem_cons]
    refine ⟨?_, ?_, ?_, ?_, ?_, ?_, fun x hx => (List.not_mem_nil hx).elim⟩ <;> decide

theorem main_prints_oneRow :
    main (fun _ => Vector.replicate 16 0) (some ("1\n1 2 2 1 1 3\n".toList.map chr)) =
      .ok (0, utf8 "\nВходные параметры : 1 2 2 1 1 3\n\n -1 0\n") := by
  have htotal : oneRow.total = 1 := by decide +kernel
  have hfile : "1\n1 2 2 1 1 3\n".toList.map chr = fileText [oneRow] ++ [newline] := by decide +kernel
  obtain ⟨averages, hmeans, hmain⟩ := (main_prints (fun _ => Vector.replicate 16 0) [oneRow] (by decide) [newline]
    (by simp)).1 (by simp [htotal])
  obtain ⟨average, _, hmean, hnil, rfl⟩ := List.forall₂_cons_left_iff.mp hmeans
  obtain rfl := List.forall₂_nil_left_iff.mp hnil
  have hone : mean oneRow.total oneRow.M.toInt oneRow.N.toInt = .ok 1 := by
    rw [htotal]
    decide +kernel
  obtain rfl : 1 = average := Except.ok.inj (hone.symm.trans hmean)
  rw [hfile, hmain]
  exact congrArg Except.ok (by decide +kernel)

end accelerators.intel_competition
