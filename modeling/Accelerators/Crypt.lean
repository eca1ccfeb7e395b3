import Mathlib.Data.Int.Init

namespace accelerators.crypt

/-- Chunking size, in bytes, and the number of rounds. -/
def CHUNK_SIZE : Nat := 8

/-- Length of the encryption and decryption keys, in words. -/
def KEY_LENGTH : Nat := 52

/-- Length of the secret key, in words. -/
def USERKEY_LENGTH : Nat := 8

/-- `v & 0xffff`. -/
def masked (v : Int) : Nat := (v % 0x10000).toNat

/-- The value of an `int` operation, which is undefined when it overflows. -/
def int (v : Nat) : Option Nat := if v < 0x80000000 then some v else none

/-- The variables `x1` to `x4`. What the source assigns to them is masked, or made from
    masked values by exclusive or. -/
structure Words where
  x1 : UInt16
  x2 : UInt16
  x3 : UInt16
  x4 : UInt16
  deriving DecidableEq

/-- `(x * z) % 0x10001L & 0xffff`, in a `long` of 64 bits. -/
def mul (x : UInt16) (z : Nat) : UInt16 := UInt16.ofNat (x.toNat * z % 0x10001)

/-- `(x + z) & 0xffff`. -/
def add (x : UInt16) (z : Nat) : UInt16 := UInt16.ofNat (x.toNat + z)

/-- The body of the loop over the rounds. -/
def round (z1 z2 z3 z4 z5 z6 : Nat) (x : Words) : Words :=
  let x1 := mul x.x1 z1
  let x2 := add x.x2 z2
  let x3 := add x.x3 z3
  let x4 := mul x.x4 z4
  let t2 := mul (x1 ^^^ x3) z5
  let t1 := mul (t2 + (x2 ^^^ x4)) z6
  let t2 := t1 + t2
  ⟨x1 ^^^ t1, x3 ^^^ t1, t2 ^^^ x2, x4 ^^^ t2⟩

/-- What follows the rounds, with the words in the order in which they are stored. -/
def finish (z1 z2 z3 z4 : Nat) (x : Words) : Words :=
  let x1 := mul x.x1 z1
  let x3 := add x.x3 z2
  let x2 := add x.x2 z3
  let x4 := mul x.x4 z4
  ⟨x1, x3, x2, x4⟩

/-- The last `r` rounds, with the key from `ik` on. The key has to be long enough. -/
def rounds : (r : Nat) → Words → (key : List Nat) → Option Words
  | 0, x, z1 :: z2 :: z3 :: z4 :: _ => some (finish z1 z2 z3 z4 x)
  | r + 1, x, z1 :: z2 :: z3 :: z4 :: z5 :: z6 :: key => rounds r (round z1 z2 z3 z4 z5 z6 x) key
  | _, _, _ => none

/-- Eight bytes of data. -/
abbrev Chunk := Vector Int8 8

def word (low high : Int8) : UInt16 := low.toUInt8.toUInt16 ||| (high.toUInt8.toUInt16 <<< 8)

def load (plain : Chunk) : Words where
  x1 := word plain[0] plain[1]
  x2 := word plain[2] plain[3]
  x3 := word plain[4] plain[5]
  x4 := word plain[6] plain[7]

def low (x : UInt16) : Int8 := x.toUInt8.toInt8

def high (x : UInt16) : Int8 := (x >>> 8).toUInt8.toInt8

def store (x : Words) : Chunk :=
  #v[low x.x1, high x.x1, low x.x2, high x.x2, low x.x3, high x.x3, low x.x4, high x.x4]

/-- The work on one chunk. -/
def doCrypt (key : List Nat) (plain : Chunk) : Option Chunk :=
  (rounds CHUNK_SIZE (load plain) key).map store

/-- The loop of `inv`. A division by zero has no result either. -/
def invLoop (x y t0 t1 : Nat) : Option Nat :=
  if y = 0 then none
  else do
    let t0 ← int (t0 + x / y * t1)
    if x % y = 1 then some t0
    else if x % y = 0 then none
    else do
      let t1 ← int (t1 + y / (x % y) * t0)
      if y % (x % y) = 1 then some (masked (1 - t1)) else invLoop (x % y) (y % (x % y)) t0 t1
termination_by y
decreasing_by
  have hx := Nat.mod_lt x (Nat.pos_of_ne_zero ‹¬ y = 0›)
  have hy := Nat.mod_lt y (Nat.pos_of_ne_zero ‹¬ x % y = 0›)
  omega

/-- The function is called on words only. -/
def inv (x : Nat) : Option Nat :=
  if x ≤ 1 then some x
  else
    let t1 := 0x10001 / x
    let y := 0x10001 % x
    if y = 1 then some (masked (1 - t1)) else invLoop x y 1 t1

/-- `userkey[i] & 0xffff`. -/
def keyWord (userkey : Vector Int16 8) (i : Nat) : Nat := (userkey.toList.getD i 0).toUInt16.toNat

/-- What `generateEncryptKey` puts into `key[i]` after the words of the user key. -/
def subkey (key : List Nat) (i : Nat) : Nat :=
  let j := i % CHUNK_SIZE
  if j < 6 then ((key.getD (i - 7) 0 >>> 9) ||| (key.getD (i - 6) 0 <<< 7)) &&& 0xffff
  else if j = 6 then ((key.getD (i - 7) 0 >>> 9) ||| (key.getD (i - 14) 0 <<< 7)) &&& 0xffff
  else ((key.getD (i - 15) 0 >>> 9) ||| (key.getD (i - 14) 0 <<< 7)) &&& 0xffff

def generateEncryptKey (userkey : Vector Int16 8) : List Nat :=
  let key := List.replicate KEY_LENGTH 0
  let key := (List.range CHUNK_SIZE).foldl (fun key i => key.set i (keyWord userkey i)) key
  (List.range' CHUNK_SIZE (KEY_LENGTH - CHUNK_SIZE)).foldl (fun key i => key.set i (subkey key i)) key

/-- The loop of `generateDecryptKey` and what follows it. The key is written from its
    end, while `Z` is read from `k` on. -/
def decryptKey : (i : Nat) → (Z key : List Nat) → Option (List Nat)
  | 0, z0 :: z1 :: z2 :: z3 :: z4 :: z5 :: _, key => do
    let t1 ← inv z2
    let t2 := masked (-z3)
    let t3 := masked (-z4)
    let last ← inv z5
    some (t1 :: t2 :: t3 :: last :: z0 :: z1 :: key)
  | i + 1, z0 :: z1 :: z2 :: z3 :: z4 :: z5 :: Z, key => do
    let t1 ← inv z2
    let t2 := masked (-z3)
    let t3 := masked (-z4)
    let last ← inv z5
    decryptKey i Z (t1 :: t3 :: t2 :: last :: z0 :: z1 :: key)
  | _, _, _ => none

def generateDecryptKey (userkey : Vector Int16 8) : Option (List Nat) :=
  match generateEncryptKey userkey with
  | z0 :: z1 :: z2 :: z3 :: Z => do
    let t1 ← inv z0
    let t2 := masked (-z1)
    let t3 := masked (-z2)
    let last ← inv z3
    decryptKey 7 Z [t1, t2, t3, last]
  | _ => none

end accelerators.crypt
