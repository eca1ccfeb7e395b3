import Mathlib.Data.Finmap

namespace accelerators.poly

/-- The bindings of a `Map` from exponents to coefficients. -/
abbrev Terms (R : Type) := Finmap fun _ : Int32 => R

/-- The order in which a `Map` object gives its bindings. It depends on how the
    object came about, so every iteration has one of its own. -/
structure MapOrder (R : Type) where
  iterate : Terms R → List (Σ _ : Int32, R)
  entries : ∀ terms, (iterate terms : Multiset (Σ _ : Int32, R)) = terms.entries

noncomputable instance {R : Type} : Inhabited (MapOrder R) :=
  ⟨⟨fun terms => terms.entries.toList, fun terms => terms.entries.coe_toList⟩⟩

variable {R : Type}

/-- `terms ++ bindings`, with one `+` for each binding. -/
def concat (terms : Terms R) (bindings : List (Σ _ : Int32, R)) : Terms R :=
  bindings.foldl (fun terms term => terms.insert term.1 term.2) terms

/-- Both classes have this one field. -/
@[ext]
structure Poly (R : Type) where
  terms : Terms R

/-- `terms(exp)` of a map with the default value 0. -/
def coefficient [Zero R] (terms : Terms R) (exp : Int32) : R := (terms.lookup exp).getD 0

variable [Add R] [Zero R]

namespace W5

def adjust (poly : Poly R) (term : Σ _ : Int32, R) : Σ _ : Int32, R :=
  ⟨term.1, term.2 + coefficient poly.terms term.1⟩

/-- `terms ++ (other.terms map adjust)`, where `map` builds a map that is iterated
    in an order of its own. -/
def add (order adjusted : MapOrder R) (poly other : Poly R) : Poly R :=
  ⟨concat poly.terms (adjusted.iterate (concat ∅ ((order.iterate other.terms).map (adjust poly))))⟩

end W5

namespace PolyM

/-- The parameter hides the field of the same name. -/
def addTerm (terms : Terms R) (term : Σ _ : Int32, R) : Terms R :=
  terms.insert term.1 (term.2 + coefficient terms term.1)

def add (order : MapOrder R) (poly other : Poly R) : Poly R :=
  ⟨(order.iterate other.terms).foldl addTerm poly.terms⟩

end PolyM

end accelerators.poly
