import Accelerators.TruncatedEuclid

open truncated_euclid

namespace accelerators.rational

variable {α : Type} [Zero α] [DecidableEq α] [TruncatedDivision α]

def gcd (a b : α) : α :=
  if b = 0 then a else gcd b (TruncatedDivision.rem a b)
termination_by TruncatedDivision.size b
decreasing_by exact TruncatedDivision.size_rem_lt a b (by assumption)

/-- The arguments of a constructor call that passed its `require`. -/
structure Rational (α : Type) [Zero α] where
  x : α
  y : α
  denom_ne_zero : y ≠ 0

namespace Rational

/-- `new Rational(x, y)`. -/
def new (x y : α) : Except String (Rational α) :=
  if h : y ≠ 0 then .ok ⟨x, y, h⟩ else .error "requirement failed: denom"

/-- `new Rational(x)`. -/
def whole [One α] (x : α) : Except String (Rational α) := new x 1

def g (r : Rational α) : α := gcd r.x r.y

def numer (r : Rational α) : α := TruncatedDivision.quot r.x r.g

def denom (r : Rational α) : α := TruncatedDivision.quot r.y r.g

def add [Add α] [Mul α] (r that : Rational α) : Except String (Rational α) :=
  new (r.numer * that.denom + that.numer * r.denom) (r.denom * that.denom)

def toString [ToString α] (r : Rational α) : String :=
  ToString.toString r.numer ++ "/" ++ ToString.toString r.denom

def neg [Neg α] (r : Rational α) : Except String (Rational α) := new (-r.numer) r.denom

def sub [Add α] [Mul α] [Neg α] (r that : Rational α) : Except String (Rational α) := that.neg >>= r.add

def less [Mul α] [LT α] [DecidableLT α] (r that : Rational α) : Bool :=
  r.numer * that.denom < that.numer * r.denom

def max [Mul α] [LT α] [DecidableLT α] (r that : Rational α) : Rational α :=
  if r.less that then that else r

end Rational

end accelerators.rational
