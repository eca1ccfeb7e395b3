import Mathlib.RingTheory.Coprime.Lemmas
import Accelerators.Rational.Machine

open truncated_euclid

namespace accelerators.rational

variable {p q c k : Int}

/-- The sum `p / q` in lowest terms comes out of `add`, where `c` is what is left
    in an `Int` of the factor by which `add` has expanded it. -/
def Exact (p q c : Int) : Prop :=
  if p = -2 ^ 31 then (c = 1 ∧ gcd p q = 1) ∨ c = -1 else c ≠ 0 ∧ InRange (p * c) ∧ InRange (q * c)

/-- Factors of two numbers without a common factor are told apart by the
    products. -/
theorem wrap_eq_of_products (hlowest : Int.gcd p q = 1) (hp : wrap (p * k) = wrap (p * c))
    (hq : wrap (q * k) = wrap (q * c)) : wrap k = wrap c := by
  obtain ⟨u, v, huv⟩ := Int.isCoprime_iff_gcd_eq_one.mpr hlowest
  rw [wrap_eq_wrap_iff] at hp hq ⊢
  have hsum : k - c = u * (p * k - p * c) + v * (q * k - q * c) := by
    linear_combination (-(k - c)) * huv
  rw [hsum]
  exact dvd_add (hp.mul_left u) (hq.mul_left v)

/-- A fraction equal to one in lowest terms is a multiple of it. -/
theorem exists_factor {x y : Int} (hq : q ≠ 0) (hlowest : Int.gcd p q = 1) (hy : y ≠ 0)
    (heq : (x : ℚ) / y = p / q) : ∃ j, x = p * j ∧ y = q * j := by
  have hcross : x * q = p * y := by
    rw [div_eq_div_iff (Int.cast_ne_zero.mpr hy) (Int.cast_ne_zero.mpr hq)] at heq
    exact_mod_cast heq
  have hcoprime : IsCoprime q p := (Int.isCoprime_iff_gcd_eq_one.mpr hlowest).symm
  obtain ⟨j, rfl⟩ : q ∣ y := hcoprime.dvd_of_dvd_mul_left (Dvd.intro_left x hcross)
  exact ⟨j, mul_right_cancel₀ hq (by rw [hcross]; ring), rfl⟩

/-- The only common factors of a pair whose `gcd` is a unit are units. -/
theorem factor_eq {x y j : Int} (hg : gcd x y = -1) (hx : j ∣ x) (hy : j ∣ y) : j = 1 ∨ j = -1 := by
  have hdvd := Int.dvd_coe_gcd hx hy
  rw [← isEuclid_gcd.natAbs_eq, hg] at hdvd
  exact Int.isUnit_iff.mp (isUnit_of_dvd_one hdvd)

theorem gcd_lowest (hlowest : Int.gcd p q = 1) : gcd p q = 1 ∨ gcd p q = -1 := by
  have habs := isEuclid_gcd.natAbs_eq p q
  omega

namespace Rational

variable {t : Rational Int32}

/-- No division wraps: the arguments are `p` and `q` times what is left of `k`. -/
theorem exact_of_div_eq (hq : 0 < q) (hlowest : Int.gcd p q = 1)
    (hx : t.x.toInt = wrap (p * k)) (hy : t.y.toInt = wrap (q * k)) (hvalue : (t.x.toInt : ℚ) / t.y.toInt = p / q)
    (hwraps : ¬ t.DivisionWraps) :
    Exact p q (wrap k) := by
  have hy0 : t.y.toInt ≠ 0 := fun hzero => t.denom_ne_zero (Int32.toInt_inj.mp hzero)
  obtain ⟨j, hpj, hqj⟩ := exists_factor hq.ne' hlowest hy0 hvalue
  have hprange : InRange (p * j) := hpj ▸ inRange_toInt t.x
  have hqrange : InRange (q * j) := hqj ▸ inRange_toInt t.y
  have hj0 : j ≠ 0 := by
    rintro rfl
    exact hy0 (by rw [hqj, mul_zero])
  have hjrange : InRange j := by
    obtain ⟨hlow, hhigh⟩ := bounds_of_mul hq.ne' hqrange
    refine ⟨hlow, lt_of_le_of_ne hhigh ?_⟩
    rintro rfl
    exact absurd hqrange.2 (by omega)
  have hwrap : wrap k = j := by
    rw [← wrap_of_inRange hjrange]
    apply wrap_eq_of_products hlowest
    · rw [← hx, hpj, wrap_of_inRange hprange]
    · rw [← hy, hqj, wrap_of_inRange hqrange]
  rw [hwrap, Exact]
  split_ifs with hmin
  · obtain ⟨hlow, hhigh⟩ := hprange
    obtain rfl : j = 1 := by
      rw [hmin] at hlow hhigh
      omega
    rw [mul_one] at hpj hqj
    refine .inl ⟨rfl, (gcd_lowest hlowest).resolve_right fun hg => hwraps ?_⟩
    rw [DivisionWraps, hpj, hqj]
    exact ⟨hg, .inl hmin⟩
  · exact ⟨hj0, hprange, hqrange⟩

/-- The numerator wraps: both signs are lost, and the outcome is right again. -/
theorem exact_of_numer_wraps (hq : 0 < q) (hlowest : Int.gcd p q = 1) (hp : InRange p) (hq' : InRange q)
    (hx : t.x.toInt = wrap (p * k)) (hy : t.y.toInt = wrap (q * k)) (hg : gcd t.x.toInt t.y.toInt = -1)
    (hmin : t.x.toInt = -2 ^ 31) (hvalue : t.machineValue = p / q) : Exact p q (wrap k) := by
  have hy0 : t.y.toInt ≠ 0 := fun hzero => t.denom_ne_zero (Int32.toInt_inj.mp hzero)
  rw [machineValue_of_numer_wraps t hg hmin] at hvalue
  obtain ⟨j, hpj, hqj⟩ := exists_factor hq.ne' hlowest (neg_ne_zero.mpr hy0) hvalue
  have hj : j = 1 ∨ j = -1 :=
    factor_eq hg (Dvd.intro_left p (by rw [hmin, hpj])) ((dvd_neg).mp (Dvd.intro_left q hqj.symm))
  obtain ⟨hlow, hhigh⟩ := hp
  obtain ⟨-, hqhigh⟩ := hq'
  obtain rfl | rfl := hj
  · obtain rfl : p = -2 ^ 31 := by omega
    rw [Exact, if_pos rfl, ← show wrap (-1) = -1 from rfl]
    refine .inr (wrap_eq_of_products hlowest ?_ ?_)
    · rw [← hx, hmin]
      decide
    · have hneg : InRange (q * -1) := ⟨by omega, by omega⟩
      rw [← hy, wrap_of_inRange hneg]
      omega
  · omega

/-- The denominator does not wrap when the outcome is right. -/
theorem not_denom_wraps (hq : 0 < q) (hlowest : Int.gcd p q = 1) (hq' : InRange q)
    (hg : gcd t.x.toInt t.y.toInt = -1) (hmin : t.y.toInt = -2 ^ 31) : t.machineValue ≠ p / q := by
  intro hvalue
  rw [machineValue_of_denom_wraps t hg hmin] at hvalue
  obtain ⟨j, hpj, hqj⟩ := exists_factor hq.ne' hlowest (by decide) hvalue
  have hj : j = 1 ∨ j = -1 :=
    factor_eq hg ((dvd_neg).mp (Dvd.intro_left p hpj.symm)) (Dvd.intro_left q (by rw [hmin, hqj]))
  obtain ⟨hlow, hhigh⟩ := hq'
  obtain rfl | rfl := hj <;> omega

theorem exact_of_value (hq : 0 < q) (hlowest : Int.gcd p q = 1) (hp : InRange p) (hq' : InRange q)
    (hx : t.x.toInt = wrap (p * k)) (hy : t.y.toInt = wrap (q * k)) (hvalue : t.machineValue = p / q) :
    Exact p q (wrap k) := by
  by_cases hwraps : t.DivisionWraps
  · obtain ⟨hg, hmin | hmin⟩ := hwraps
    · exact exact_of_numer_wraps hq hlowest hp hq' hx hy hg hmin hvalue
    · exact absurd hvalue (not_denom_wraps hq hlowest hq' hg hmin)
  · exact exact_of_div_eq hq hlowest hx hy ((machineValue_eq_div t hwraps).symm.trans hvalue) hwraps

/-- What is left of `k` fits with the sum. -/
theorem value_of_fits (hp : InRange p) (hq : 0 < q) (hq' : InRange q) (hmin : p ≠ -2 ^ 31) {c : Int}
    (hc : c ≠ 0) (hx : t.x.toInt = p * c) (hy : t.y.toInt = q * c) : t.machineValue = p / q := by
  have hwraps : ¬ t.DivisionWraps := by
    rintro ⟨hg, hedge⟩
    obtain ⟨hlow, hhigh⟩ := hp
    obtain ⟨-, hqhigh⟩ := hq'
    have hunit := factor_eq hg (Dvd.intro_left p hx.symm) (Dvd.intro_left q hy.symm)
    rw [hx, hy] at hedge
    obtain rfl | rfl := hunit <;> omega
  have hc' : (c : ℚ) ≠ 0 := Int.cast_ne_zero.mpr hc
  rw [machineValue_eq_div t hwraps, hx, hy]
  push_cast
  exact mul_div_mul_right _ _ hc'

/-- The smallest `Int` over an odd denominator. -/
theorem value_of_min (hq : 0 < q) (hq' : InRange q) (hlowest : Int.gcd (-2 ^ 31) q = 1) {c : Int}
    (hc : (c = 1 ∧ gcd (-2 ^ 31) q = 1) ∨ c = -1) (hx : t.x.toInt = wrap (-2 ^ 31 * c))
    (hy : t.y.toInt = wrap (q * c)) : t.machineValue = (-2 ^ 31 : Int) / q := by
  obtain ⟨-, hqhigh⟩ := hq'
  obtain ⟨rfl, hg⟩ | rfl := hc
  · rw [mul_one, wrap_of_inRange ⟨by omega, by omega⟩] at hx hy
    rw [machineValue_eq_div t (by rw [DivisionWraps, hx, hy, hg]; omega), hx, hy]
  · have hx' : t.x.toInt = -2 ^ 31 := hx
    have hy' : t.y.toInt = -q := by
      rw [hy, wrap_of_inRange ⟨by omega, by omega⟩]
      omega
    have hpositive : gcd (2 ^ 31) q = 1 := by
      have hnonneg := isEuclid_gcd.nonneg (2 ^ 31) q (by decide) hq.le
      have habs := isEuclid_gcd.natAbs_eq (2 ^ 31) q
      rw [← Int.neg_gcd, hlowest] at habs
      omega
    have hg : gcd t.x.toInt t.y.toInt = -1 := by
      have hmul := isEuclid_gcd.mul_left (-1) (2 ^ 31) q
      rwa [hpositive, neg_one_mul, neg_one_mul, ← hx', ← hy', mul_one] at hmul
    rw [machineValue_of_numer_wraps t hg hx', hy', neg_neg]

theorem value_of_exact (hq : 0 < q) (hlowest : Int.gcd p q = 1) (hp : InRange p) (hq' : InRange q)
    (hx : t.x.toInt = wrap (p * k)) (hy : t.y.toInt = wrap (q * k)) (hexact : Exact p q (wrap k)) :
    t.machineValue = p / q := by
  rw [← wrap_mul_wrap] at hx hy
  rw [Exact] at hexact
  split_ifs at hexact with hmin
  · subst hmin
    exact value_of_min hq hq' hlowest hexact hx hy
  · obtain ⟨hc, hprange, hqrange⟩ := hexact
    exact value_of_fits hp hq hq' hmin hc (hx.trans (wrap_of_inRange hprange))
      (hy.trans (wrap_of_inRange hqrange))

theorem denom_of_exact (hq : 0 < q) (hq' : InRange q) (hexact : Exact p q (wrap k)) : wrap (q * k) ≠ 0 := by
  obtain ⟨-, hqhigh⟩ := hq'
  rw [← wrap_mul_wrap]
  rw [Exact] at hexact
  split_ifs at hexact
  · obtain ⟨hc, -⟩ | hc := hexact
    · rw [hc, wrap_of_inRange ⟨by omega, by omega⟩]
      omega
    · rw [hc, wrap_of_inRange ⟨by omega, by omega⟩]
      omega
  · obtain ⟨hc, -, hqrange⟩ := hexact
    rw [wrap_of_inRange hqrange]
    exact mul_ne_zero hq.ne' hc

variable (r s : Rational Int32)

theorem denom_toInt_ne_zero : r.denom.toInt ≠ 0 := by
  have hg := r.gcd_toInt_ne_zero
  have hdvd := isEuclid_gcd.dvd_right r.x.toInt r.y.toInt
  rw [toInt_denom]
  obtain hwrap | ⟨-, -, hwrap⟩ := wrap_tdiv (inRange_toInt r.y) hg hdvd
  · rw [hwrap]
    intro hzero
    have hmul := Int.mul_tdiv_cancel' hdvd
    rw [hzero, mul_zero] at hmul
    exact r.denom_ne_zero (Int32.toInt_inj.mp hmul.symm)
  · rw [hwrap]
    decide

/-- The arguments that `add` passes to the constructor. -/
theorem toInt_add_numer : (r.numer * s.denom + s.numer * r.denom).toInt =
    wrap (r.numer.toInt * s.denom.toInt + s.numer.toInt * r.denom.toInt) := by
  rw [Int32.toInt_add, Int32.toInt_mul, Int32.toInt_mul]
  exact (Int.bmod_add_bmod.trans Int.add_bmod_bmod)

theorem toInt_add_denom : (r.denom * s.denom).toInt = wrap (r.denom.toInt * s.denom.toInt) :=
  Int32.toInt_mul r.denom s.denom

/-- The unreduced sum that `add` works with, before anything wraps. -/
theorem exists_expansion (hq : 0 < q) (hlowest : Int.gcd p q = 1)
    (hsum : r.machineValue + s.machineValue = p / q) :
    ∃ k, r.numer.toInt * s.denom.toInt + s.numer.toInt * r.denom.toInt = p * k ∧
      r.denom.toInt * s.denom.toInt = q * k ∧ r.denom.toInt * s.denom.toInt / q = k := by
  have hr := r.denom_toInt_ne_zero
  have hs := s.denom_toInt_ne_zero
  rw [machineValue, machineValue, div_add_div _ _ (Int.cast_ne_zero.mpr hr) (Int.cast_ne_zero.mpr hs)] at hsum
  obtain ⟨k, hnumer, hdenom⟩ := exists_factor (x := r.numer.toInt * s.denom.toInt + s.numer.toInt * r.denom.toInt)
    hq.ne' hlowest (mul_ne_zero hr hs) (by
      rw [← hsum]
      push_cast
      ring_nf)
  exact ⟨k, hnumer, hdenom, by rw [hdenom, Int.mul_ediv_cancel_left _ hq.ne']⟩

/-- In 32 bits `add` returns the sum `p / q` exactly when the factor by which it
    expands it fits beside `p` and `q`; it throws when the product of the
    denominators is a multiple of `2 ^ 32`. -/
theorem add_exact_iff (hq : 0 < q) (hlowest : Int.gcd p q = 1) (hsum : r.machineValue + s.machineValue = p / q)
    (hp : InRange p) (hq' : InRange q) :
    ((∃ t, r.add s = .ok t ∧ t.machineValue = r.machineValue + s.machineValue) ↔
      Exact p q (wrap (r.denom.toInt * s.denom.toInt / q))) ∧
    (r.add s = .error "requirement failed: denom" ↔ (2 : Int) ^ 32 ∣ r.denom.toInt * s.denom.toInt) := by
  obtain ⟨k, hnumer, hdenom, hfactor⟩ := exists_expansion r s hq hlowest hsum
  have hx := toInt_add_numer r s
  have hy := toInt_add_denom r s
  rw [hnumer] at hx
  have hzero : r.denom * s.denom = 0 ↔ (2 : Int) ^ 32 ∣ r.denom.toInt * s.denom.toInt := by
    rw [← Int32.toInt_inj, hy, show (0 : Int32).toInt = wrap 0 from rfl, wrap_eq_wrap_iff, sub_zero]
  rw [hdenom] at hy
  rw [hsum, hfactor]
  by_cases hne : r.denom * s.denom = 0
  · have herror : r.add s = .error "requirement failed: denom" := dif_neg (not_not.mpr hne)
    refine ⟨⟨?_, ?_⟩, iff_of_true herror (hzero.mp hne)⟩
    · rintro ⟨t, ht, -⟩
      rw [herror] at ht
      cases ht
    · intro hexact
      refine absurd ?_ (denom_of_exact hq hq' hexact)
      rw [← hy, hne]
      rfl
  · have hok : r.add s = .ok ⟨_, _, hne⟩ := dif_pos hne
    refine ⟨⟨?_, ?_⟩, iff_of_false (by rw [hok]; rintro ⟨⟩) (mt hzero.mpr hne)⟩
    · rintro ⟨t, ht, hvalue⟩
      rw [hok] at ht
      obtain rfl := Except.ok.inj ht
      exact exact_of_value (t := ⟨_, _, hne⟩) hq hlowest hp hq' hx hy hvalue
    · intro hexact
      exact ⟨_, hok, value_of_exact (t := ⟨_, _, hne⟩) hq hlowest hp hq' hx hy hexact⟩

/-- What has no common factor is stored as it is. -/
theorem stored_of_gcd {x y : Int32} (hy : y ≠ 0) (hg : gcd x y = 1) :
    (⟨x, y, hy⟩ : Rational Int32).numer = x ∧ (⟨x, y, hy⟩ : Rational Int32).denom = y := by
  rw [numer, denom, g, hg]
  exact ⟨Int32.div_one, Int32.div_one⟩

theorem gcd_unit {y : Int32} (hy : y ≠ 0) (hrem : TruncatedDivision.rem 1 y = 1)
    (hrem' : TruncatedDivision.rem y 1 = 0) : gcd 1 y = 1 := by
  rw [gcd_eq, if_neg hy, hrem, gcd_eq, if_neg (by decide), hrem', gcd_eq, if_pos rfl]

def small : Rational Int32 := ⟨1, 65536, by decide⟩
def smaller : Rational Int32 := ⟨1, 65537, by decide⟩
def nearlyOne : Rational Int32 := ⟨65536, 65537, by decide⟩

theorem small_stored : small.numer = 1 ∧ small.denom = 65536 :=
  stored_of_gcd (by decide) (gcd_unit (by decide) (by decide) (by decide))

theorem smaller_stored : smaller.numer = 1 ∧ smaller.denom = 65537 :=
  stored_of_gcd (by decide) (gcd_unit (by decide) (by decide) (by decide))

theorem nearlyOne_stored : nearlyOne.numer = 65536 ∧ nearlyOne.denom = 65537 := by
  have hrem : TruncatedDivision.rem (65536 : Int32) 65537 = 65536 := by decide
  have hrem' : TruncatedDivision.rem (65537 : Int32) 65536 = 1 := by decide
  have hrem'' : TruncatedDivision.rem (65536 : Int32) 1 = 0 := by decide
  refine stored_of_gcd (by decide) ?_
  rw [gcd_eq, if_neg (by decide), hrem, gcd_eq, if_neg (by decide), hrem', gcd_eq, if_neg (by decide), hrem'', gcd_eq,
    if_pos rfl]

/-- In 1/65537 + 65536/65537 both arguments of the constructor wrap, and `add` returns 1. -/
theorem add_exact_of_wrapped :
    (∃ t, smaller.add nearlyOne = .ok t ∧ t.machineValue = smaller.machineValue + nearlyOne.machineValue) ∧
    smaller.denom.toInt * nearlyOne.denom.toInt / 1 = 4295098369 ∧ wrap 4295098369 = 131073 := by
  obtain ⟨hn, hd⟩ := smaller_stored
  obtain ⟨hn', hd'⟩ := nearlyOne_stored
  have hsum : smaller.machineValue + nearlyOne.machineValue = (1 : Int) / (1 : Int) := by
    rw [machineValue, machineValue, hn, hd, hn', hd', show (1 : Int32).toInt = 1 from rfl,
      show (65536 : Int32).toInt = 65536 from rfl, show (65537 : Int32).toInt = 65537 from rfl]
    norm_num
  have hfactor : smaller.denom.toInt * nearlyOne.denom.toInt / 1 = 4295098369 := by
    rw [hd, hd']
    rfl
  have hexact : Exact 1 1 (wrap (smaller.denom.toInt * nearlyOne.denom.toInt / 1)) := by
    rw [hfactor, Exact, if_neg (by decide)]
    exact ⟨by decide, ⟨by decide, by decide⟩, ⟨by decide, by decide⟩⟩
  obtain ⟨hiff, -⟩ :=
    add_exact_iff smaller nearlyOne (by decide) (by decide) hsum ⟨by decide, by decide⟩ ⟨by decide, by decide⟩
  exact ⟨hiff.mpr hexact, hfactor, rfl⟩

/-- The sum of 1/65536 and 1/65536 is 1/32768, but `add` throws. -/
theorem small_add_throws : small.machineValue + small.machineValue = ((1 : Int) : ℚ) / (32768 : Int) ∧
    small.add small = .error "requirement failed: denom" := by
  obtain ⟨hn, hd⟩ := small_stored
  constructor
  · rw [machineValue, hn, hd, show (1 : Int32).toInt = 1 from rfl, show (65536 : Int32).toInt = 65536 from rfl]
    norm_num
  · rw [add, hn, hd]
    rfl

end Rational

end accelerators.rational
