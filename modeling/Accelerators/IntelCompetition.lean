import Mathlib.Algebra.Order.Field.Rat
import Mathlib.Data.Rat.Floor
import Accelerators.Rounding
import Accelerators.Kaleidoscope.Lexer

open accelerators.kaleidoscope (chr isspace isdigit)
open rounding

namespace accelerators.intel_competition

/-- What would be undefined behaviour. -/
inductive Fault where
  | bounds
  | unwritten
  | overflow
  | division
  deriving DecidableEq

/-- A string without its terminating byte. -/
structure CString where
  bytes : List UInt8
  terminated : 0 ∉ bytes

/-- The value of a text that consists of digits up to some point. -/
def number (text : List UInt8) : Nat :=
  (text.takeWhile isdigit).foldl (fun n c => 10 * n + (c.toNat - (chr '0').toNat)) 0

/-- `(int)strtol(nptr, NULL, 10)`. The number is computed as a `long`, which the
    texts of this program are too short to exceed. -/
def atoi (nptr : List UInt8) : Int32 :=
  match nptr.dropWhile isspace with
  | [] => 0
  | c :: text =>
    if c = chr '-' then Int32.ofInt (-number text)
    else if c = chr '+' then Int32.ofNat (number text)
    else Int32.ofNat (number (c :: text))

/-- `array[index] = x`. -/
def store {α : Type} {n : Nat} (array : Vector α n) (index : Nat) (x : α) : Except Fault (Vector α n) :=
  if h : index < n then .ok (array.set index x h) else .error .bounds

/-- The parameters that `parse` sets. -/
structure Parameters where
  M : Int32
  N : Int32
  seed0 : Int32
  a : Int32
  b : Int32
  m : Int32
  deriving DecidableEq

/-- The variables of the loop. An entry of `rez` is `none` as long as it was not
    written. -/
structure Parsing where
  pos_wr : Nat
  temp : Vector UInt8 16
  rez : Vector (Option Int32) 6
  pos_rez : Nat

/-- What a library function sees of the buffer. -/
def text (temp : Vector UInt8 16) : List UInt8 := temp.toList.takeWhile (· != 0)

def isseparator (c : UInt8) : Bool := c == chr ' ' || c == 0

/-- The body of the loop for the byte `s[pos_rd]`. -/
def Parsing.body (p : Parsing) (c : UInt8) : Except Fault Parsing :=
  if !isseparator c then do
    let temp ← store p.temp p.pos_wr c
    pure { p with temp, pos_wr := p.pos_wr + 1 }
  else do
    let temp ← store p.temp p.pos_wr 0
    let rez ← store p.rez p.pos_rez (some (atoi (text temp)))
    pure { temp, pos_wr := 0, rez, pos_rez := p.pos_rez + 1 }

def read (rez : Vector (Option Int32) 6) (index : Fin 6) : Except Fault Int32 :=
  match rez[index] with
  | none => .error .unwritten
  | some x => .ok x

/-- The assignments after the loop. -/
def assign (rez : Vector (Option Int32) 6) : Except Fault Parameters := do
  let M ← read rez 0
  let N ← read rez 1
  let seed0 ← read rez 2
  let a ← read rez 3
  let b ← read rez 4
  let m ← read rez 5
  pure { M, N, seed0, a, b, m }

/-- The loop also sees the terminating byte. `temp` is not initialized, and keeps
    its contents between the iterations. -/
def parse (temp : Vector UInt8 16) (s : CString) : Except Fault Parameters := do
  let p ← (s.bytes ++ [0]).foldlM Parsing.body { pos_wr := 0, temp, rez := Vector.replicate 6 none, pos_rez := 0 }
  assign p.rez

/-- The result of an `int` computation. -/
def int (n : Int) : Except Fault Int := if -2 ^ 31 ≤ n ∧ n < 2 ^ 31 then .ok n else .error .overflow

/-- The remainder is taken of a quotient that has to exist. -/
def PRNG (seed a b m : Int) : Except Fault Int := do
  let product ← int (a * seed)
  let sum ← int (product + b)
  if m = 0 then .error .division
  else do
    let _ ← int (sum.tdiv m)
    pure (sum.tmod m)

structure Filling where
  seed : Int
  sum : Int

/-- The inner loop with `n` columns to go. -/
def fillRow (a b m : Int) : (n : Nat) → Filling → Except Fault (List Int × Filling)
  | 0, f => pure ([], f)
  | n + 1, f => do
    let seed ← PRNG f.seed a b m
    let sum ← int (f.sum + seed)
    let (row, f) ← fillRow a b m n { seed, sum }
    pure (seed :: row, f)

/-- The outer loop with `k` rows to go. -/
def fillRows (N a b m : Int) : (k : Nat) → Filling → Except Fault (List (List Int) × Filling)
  | 0, f => pure ([], f)
  | k + 1, f => do
    let (row, f) ← fillRow a b m N.toNat f
    let (rows, f) ← fillRows N a b m k f
    pure (row :: rows, f)

/-- `((float)sum / (M*N)) + 0.5` as an `int`. The quotient is a `float`, the sum a
    `double`. -/
def mean (sum M N : Int) : Except Fault Int := do
  let product ← int (M * N)
  if product = 0 then .error .division
  else
    let quotient : Rat := roundTo 24 (roundTo 24 (sum : Rat) / roundTo 24 (product : Rat))
    int (truncate (roundTo 53 (quotient + 1 / 2)))

def fill (p : Parameters) : Except Fault (List (List Int)) := do
  let (A, f) ← fillRows p.N.toInt p.a.toInt p.b.toInt p.m.toInt p.M.toInt.toNat { seed := p.seed0.toInt, sum := 0 }
  let mean ← mean f.sum p.M.toInt p.N.toInt
  A.mapM fun row => row.mapM fun x => int (x - mean)

/-- What `main` does with the line of a test. -/
def generate (temp : Vector UInt8 16) (s : CString) : Except Fault (List (List Int)) := do
  let parameters ← parse temp s
  fill parameters

end accelerators.intel_competition
