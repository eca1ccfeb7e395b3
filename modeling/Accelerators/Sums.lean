import Accelerators.Loops

open loops

namespace accelerators.sums

/-! The numbers wrap around, so a counter that goes up need not pass its bound. Every
    function gets fuel for its calls. -/

def sumInts (a b : Int32) (fuel : Nat) : Option Int32 :=
  recur (fun a => a > b) (fun a => a + 1) 0 (fun a rest => a + rest) fuel a

def cube (x : Int32) : Int32 := x * x * x

def sumCubes (a b : Int32) (fuel : Nat) : Option Int32 :=
  recur (fun a => a > b) (fun a => a + 1) 0 (fun a rest => cube a + rest) fuel a

def sum (f : Int32 → Int32) (a b : Int32) (fuel : Nat) : Option Int32 :=
  recur (fun a => a > b) (fun a => a + 1) 0 (fun a rest => f a + rest) fuel a

/-- The inner function `loop` has the variables `a` and `acc`. -/
def sumBig (f : Int32 → Int32) (a b : Int32) (fuel : Nat) : Option Int32 :=
  accumulate (fun a => a > b) (fun a => a + 1) (fun acc a => acc + f a) fuel a 0

def sumCurring (f : Int32 → Int32) (a b : Int32) (fuel : Nat) : Option Int32 :=
  recur (fun a => a > b) (fun a => a + 1) 0 (fun a rest => f a + rest) fuel a

def product (f : Int32 → Int32) (a b : Int32) (fuel : Nat) : Option Int32 :=
  recur (fun a => a > b) (fun a => a + 1) 1 (fun a rest => f a * rest) fuel a

def factorial (a : Int32) (fuel : Nat) : Option Int32 := product (fun x => x) 1 a fuel

end accelerators.sums
