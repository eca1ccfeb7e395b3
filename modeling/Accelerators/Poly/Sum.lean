import Mathlib.Algebra.Group.Defs
import Accelerators.Poly

namespace accelerators.poly

variable {R : Type} {terms : Terms R} {bindings : List (Σ _ : Int32, R)} {exp : Int32}

theorem MapOrder.nodupKeys (order : MapOrder R) : (order.iterate terms).NodupKeys := by
  rw [← Multiset.coe_nodupKeys, order.entries]
  exact terms.nodupKeys

theorem MapOrder.dlookup (order : MapOrder R) : (order.iterate terms).dlookup exp = terms.lookup exp := by
  have hnodup : (order.iterate terms).NodupKeys := order.nodupKeys
  have hentries := order.entries terms
  induction terms using Finmap.induction_on with
  | H bindings =>
    rw [Finmap.lookup_toFinmap, AList.lookup]
    exact List.perm_dlookup exp hnodup (Multiset.coe_eq_coe.mp hentries)

/-- A later binding hides an earlier one. -/
theorem lookup_concat (hnodup : bindings.NodupKeys) :
    (concat terms bindings).lookup exp = (bindings.dlookup exp).or (terms.lookup exp) := by
  induction bindings generalizing terms with
  | nil => simp [concat]
  | cons term bindings ih =>
    obtain ⟨hnotMem, hnodup⟩ := List.nodupKeys_cons.mp hnodup
    rw [concat, List.foldl_cons, ← concat, ih hnodup]
    by_cases hexp : exp = term.1
    · subst hexp
      rw [List.dlookup_cons_eq, List.dlookup_eq_none.mpr hnotMem, Finmap.lookup_insert]
      rfl
    · rw [List.dlookup_cons_ne _ _ hexp, Finmap.lookup_insert_of_ne _ hexp]

section
variable [Add R] [Zero R]

/-- The fold reads a key only before it writes to it. -/
theorem lookup_foldl_addTerm (hnodup : bindings.NodupKeys) :
    (bindings.foldl PolyM.addTerm terms).lookup exp =
      ((bindings.dlookup exp).map (· + coefficient terms exp)).or (terms.lookup exp) := by
  induction bindings generalizing terms with
  | nil => simp
  | cons term bindings ih =>
    obtain ⟨hnotMem, hnodup⟩ := List.nodupKeys_cons.mp hnodup
    rw [List.foldl_cons, ih hnodup, PolyM.addTerm]
    by_cases hexp : exp = term.1
    · subst hexp
      rw [List.dlookup_cons_eq, List.dlookup_eq_none.mpr hnotMem, Finmap.lookup_insert]
      rfl
    · rw [List.dlookup_cons_ne _ _ hexp, Finmap.lookup_insert_of_ne _ hexp, coefficient,
        Finmap.lookup_insert_of_ne _ hexp, coefficient]

/-- What either `+` leaves at an exponent. -/
def sumAt (p q : Poly R) (exp : Int32) : Option R :=
  ((q.terms.lookup exp).map (· + coefficient p.terms exp)).or (p.terms.lookup exp)

theorem PolyM.lookup_add (order : MapOrder R) (p q : Poly R) :
    (PolyM.add order p q).terms.lookup exp = sumAt p q exp := by
  rw [PolyM.add, lookup_foldl_addTerm order.nodupKeys, order.dlookup, sumAt]

theorem W5.lookup_add (order adjusted : MapOrder R) (p q : Poly R) :
    (W5.add order adjusted p q).terms.lookup exp = sumAt p q exp := by
  have hadjust : (order.iterate q.terms).map (W5.adjust p) =
      (order.iterate q.terms).map (Sigma.map id fun exp coeff => coeff + coefficient p.terms exp) := rfl
  have hnodup : ((order.iterate q.terms).map (W5.adjust p)).NodupKeys := by
    rw [hadjust]
    exact order.nodupKeys.map₂ _
  rw [W5.add, lookup_concat adjusted.nodupKeys, adjusted.dlookup, lookup_concat hnodup, hadjust,
    List.dlookup_map₂, order.dlookup, Finmap.lookup_empty, Option.or_none, sumAt]

theorem W5.add_eq (o o₁ o₂ : MapOrder R) (p q : Poly R) : W5.add o₁ o₂ p q = PolyM.add o p q := by
  apply Poly.ext
  apply Finmap.ext_lookup
  intro exp
  exact (W5.lookup_add o₁ o₂ p q).trans (PolyM.lookup_add o p q).symm

end

section
variable [AddCommMonoid R]

theorem coefficient_add (o : MapOrder R) (p q : Poly R) (exp : Int32) :
    coefficient (PolyM.add o p q).terms exp = coefficient p.terms exp + coefficient q.terms exp := by
  rw [coefficient, PolyM.lookup_add, sumAt]
  cases hq : q.terms.lookup exp with
  | none => simp [coefficient, hq]
  | some coeff => simp [coefficient, hq, add_comm]

/-- A sum has a term where either polynomial has one. -/
theorem lookup_add_eq_none (o : MapOrder R) (p q : Poly R) (exp : Int32) :
    (PolyM.add o p q).terms.lookup exp = none ↔ p.terms.lookup exp = none ∧ q.terms.lookup exp = none := by
  rw [PolyM.lookup_add, sumAt]
  cases q.terms.lookup exp <;> simp

/-- A polynomial is its exponents with their coefficients. -/
theorem Poly.ext_coefficient {p q : Poly R}
    (hnone : ∀ exp, p.terms.lookup exp = none ↔ q.terms.lookup exp = none)
    (hcoefficient : ∀ exp, coefficient p.terms exp = coefficient q.terms exp) : p = q := by
  apply Poly.ext
  apply Finmap.ext_lookup
  intro exp
  have hsame := hcoefficient exp
  have hboth := hnone exp
  rw [coefficient, coefficient] at hsame
  cases hp : p.terms.lookup exp with
  | none => exact (hboth.mp hp).symm
  | some coeff =>
    cases hq : q.terms.lookup exp with
    | none => simp [hboth.mpr hq] at hp
    | some coeff' => simpa [hp, hq] using hsame

theorem PolyM.comm (o o' : MapOrder R) (p q : Poly R) : PolyM.add o p q = PolyM.add o' q p := by
  apply Poly.ext_coefficient
  · intro exp
    rw [lookup_add_eq_none, lookup_add_eq_none, and_comm]
  · intro exp
    rw [coefficient_add, coefficient_add, add_comm]

theorem PolyM.assoc (o₁ o₂ o₃ o₄ : MapOrder R) (p q r : Poly R) :
    PolyM.add o₁ (PolyM.add o₂ p q) r = PolyM.add o₃ p (PolyM.add o₄ q r) := by
  apply Poly.ext_coefficient
  · intro exp
    simp only [lookup_add_eq_none, and_assoc]
  · intro exp
    simp only [coefficient_add, add_assoc]

end

/-- The two classes compute the same map whatever the numbers are, and with exact
    ones it is the sum, a commutative and associative one. No order of iteration
    matters. -/
theorem add_laws {D R : Type} [Add D] [Zero D] [AddCommMonoid R] :
    (∀ (o o₁ o₂ : MapOrder D) (p q : Poly D), W5.add o₁ o₂ p q = PolyM.add o p q) ∧
    ∀ (o₁ o₂ o₃ o₄ : MapOrder R) (p q r : Poly R),
      (∀ exp, coefficient (PolyM.add o₁ p q).terms exp = coefficient p.terms exp + coefficient q.terms exp) ∧
      PolyM.add o₁ p q = PolyM.add o₂ q p ∧
      PolyM.add o₁ (PolyM.add o₂ p q) r = PolyM.add o₃ p (PolyM.add o₄ q r) := by
  refine ⟨W5.add_eq, fun o₁ o₂ o₃ o₄ p q r => ⟨?_, ?_, ?_⟩⟩
  · exact coefficient_add o₁ p q
  · exact PolyM.comm o₁ o₂ p q
  · exact PolyM.assoc o₁ o₂ o₃ o₄ p q r

end accelerators.poly
