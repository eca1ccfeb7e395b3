import Mathlib.Algebra.GCDMonoid.Finset
import Mathlib.Algebra.GCDMonoid.Nat
import Accelerators.Pouring.Levels

open breadth_first

namespace accelerators.pouring

variable {n : Nat} {capacity state : State n}

theorem toInt_sub_of_le {a b : Int32} (hb : 0 ≤ b.toInt) (hab : b.toInt ≤ a.toInt) :
    (a - b).toInt = a.toInt - b.toInt := by
  have hmax := a.toInt_lt
  rw [Int32.toInt_sub, Int.bmod_eq_of_le] <;> omega

theorem toInt_add_of_le {a b c : Int32} (ha : 0 ≤ a.toInt) (hb : 0 ≤ b.toInt)
    (hc : a.toInt + b.toInt ≤ c.toInt) : (a + b).toInt = a.toInt + b.toInt := by
  have hmax := c.toInt_lt
  rw [Int32.toInt_add, Int.bmod_eq_of_le] <;> omega

theorem toInt_min (a b : Int32) : (min a b).toInt = min a.toInt b.toInt := by
  change (if a ≤ b then a else b).toInt = min a.toInt b.toInt
  split_ifs with h
  · rw [min_eq_left (Int32.le_iff_toInt_le.mp h)]
  · rw [min_eq_right (Int32.le_iff_toInt_le.mp (Int32.le_of_lt (Int32.not_le.mp h)))]

/-- Every glass holds between nothing and its capacity. -/
def WithinCapacity (capacity state : State n) : Prop :=
  ∀ glass, 0 ≤ (state glass).toInt ∧ (state glass).toInt ≤ (capacity glass).toInt

/-- What a move from one glass to another transfers. -/
def amount (capacity state : State n) (fromGlass toGlass : Fin n) : Int :=
  min (state fromGlass).toInt ((capacity toGlass).toInt - (state toGlass).toInt)

theorem WithinCapacity.amount_nonneg (h : WithinCapacity capacity state) (fromGlass toGlass : Fin n) :
    0 ≤ amount capacity state fromGlass toGlass :=
  le_min (h fromGlass).1 (Int.sub_nonneg_of_le (h toGlass).2)

theorem toInt_empty (glass g : Fin n) :
    ((Move.Empty glass).change capacity state g).toInt = if g = glass then 0 else (state g).toInt := by
  rw [Move.change, Function.update_apply]
  split <;> rfl

theorem toInt_fill (glass g : Fin n) :
    ((Move.Fill glass).change capacity state g).toInt =
      if g = glass then (capacity glass).toInt else (state g).toInt := by
  rw [Move.change, Function.update_apply]
  split <;> rfl

section
variable (h : WithinCapacity capacity state) (fromGlass toGlass : Fin n)
include h

theorem WithinCapacity.toInt_room :
    (capacity toGlass - state toGlass).toInt = (capacity toGlass).toInt - (state toGlass).toInt :=
  toInt_sub_of_le (h toGlass).1 (h toGlass).2

theorem WithinCapacity.toInt_amount :
    (min (state fromGlass) (capacity toGlass - state toGlass)).toInt = amount capacity state fromGlass toGlass := by
  rw [toInt_min, h.toInt_room, amount]

theorem WithinCapacity.toInt_source :
    (state fromGlass - min (state fromGlass) (capacity toGlass - state toGlass)).toInt =
      (state fromGlass).toInt - amount capacity state fromGlass toGlass := by
  have hamount := h.toInt_amount fromGlass toGlass
  have hle : amount capacity state fromGlass toGlass ≤ (state fromGlass).toInt := min_le_left _ _
  rw [toInt_sub_of_le (hamount ▸ h.amount_nonneg fromGlass toGlass) (hamount ▸ hle), hamount]

theorem WithinCapacity.toInt_target :
    (state toGlass + min (state fromGlass) (capacity toGlass - state toGlass)).toInt =
      (state toGlass).toInt + amount capacity state fromGlass toGlass := by
  have hamount := h.toInt_amount fromGlass toGlass
  have hle : amount capacity state fromGlass toGlass ≤ (capacity toGlass).toInt - (state toGlass).toInt :=
    min_le_right _ _
  rw [toInt_add_of_le (h toGlass).1 (hamount ▸ h.amount_nonneg fromGlass toGlass) (c := capacity toGlass), hamount]
  rw [hamount]
  omega

end

/-- Pouring transfers the amount without leaving the range of the numbers. -/
theorem WithinCapacity.toInt_pour (h : WithinCapacity capacity state) (fromGlass toGlass g : Fin n) :
    ((Move.Pour fromGlass toGlass).change capacity state g).toInt =
      if g = toGlass then (state toGlass).toInt + amount capacity state fromGlass toGlass
      else if g = fromGlass then (state fromGlass).toInt - amount capacity state fromGlass toGlass
      else (state g).toInt := by
  simp only [Move.change, Function.update_apply]
  split_ifs
  · exact h.toInt_target fromGlass toGlass
  · exact h.toInt_source fromGlass toGlass
  · rfl

/-- The greatest common divisor of all capacities. -/
def gcdCapacity (capacity : State n) : Int := Finset.univ.gcd fun glass => (capacity glass).toInt

theorem gcdCapacity_dvd (capacity : State n) (glass : Fin n) : gcdCapacity capacity ∣ (capacity glass).toInt :=
  Finset.gcd_dvd (Finset.mem_univ glass)

/-- What is true of every state that is reached: the glasses hold no more than
    their capacity, and a multiple of the common divisor. -/
structure Attainable (capacity state : State n) : Prop where
  within : WithinCapacity capacity state
  dvd : ∀ glass, gcdCapacity capacity ∣ (state glass).toInt

theorem Attainable.dvd_amount (h : Attainable capacity state) (fromGlass toGlass : Fin n) :
    gcdCapacity capacity ∣ amount capacity state fromGlass toGlass := by
  rw [amount]
  obtain heq | heq := min_choice (state fromGlass).toInt ((capacity toGlass).toInt - (state toGlass).toInt)
  · rw [heq]
    exact h.dvd fromGlass
  · rw [heq]
    exact Int.dvd_sub (gcdCapacity_dvd capacity toGlass) (h.dvd toGlass)

theorem attainable_initialState (hcap : ∀ glass, 0 ≤ capacity glass) : Attainable capacity initialState where
  within := fun glass => ⟨le_rfl, Int32.le_iff_toInt_le.mp (hcap glass)⟩
  dvd := fun _ => dvd_zero _

theorem Attainable.empty (h : Attainable capacity state) (glass : Fin n) :
    Attainable capacity ((Move.Empty glass).change capacity state) where
  within := by
    intro g
    rw [toInt_empty]
    split
    · exact ⟨le_rfl, (h.within g).1.trans (h.within g).2⟩
    · exact h.within g
  dvd := by
    intro g
    rw [toInt_empty]
    split
    · exact dvd_zero _
    · exact h.dvd g

theorem Attainable.fill (h : Attainable capacity state) (glass : Fin n) :
    Attainable capacity ((Move.Fill glass).change capacity state) where
  within := by
    intro g
    rw [toInt_fill]
    split
    · subst g
      exact ⟨(h.within glass).1.trans (h.within glass).2, le_rfl⟩
    · exact h.within g
  dvd := by
    intro g
    rw [toInt_fill]
    split
    · exact gcdCapacity_dvd capacity glass
    · exact h.dvd g

theorem Attainable.pour (h : Attainable capacity state) (fromGlass toGlass : Fin n) :
    Attainable capacity ((Move.Pour fromGlass toGlass).change capacity state) where
  within := by
    intro g
    have hnonneg := h.within.amount_nonneg fromGlass toGlass
    have hfrom := h.within fromGlass
    have hto := h.within toGlass
    have hleft : amount capacity state fromGlass toGlass ≤ (state fromGlass).toInt := min_le_left _ _
    have hright : amount capacity state fromGlass toGlass ≤ (capacity toGlass).toInt - (state toGlass).toInt :=
      min_le_right _ _
    rw [h.within.toInt_pour]
    split_ifs with h1 h2
    · subst h1
      omega
    · subst h2
      omega
    · exact h.within g
  dvd := by
    intro g
    rw [h.within.toInt_pour]
    split_ifs
    · exact Int.dvd_add (h.dvd toGlass) (h.dvd_amount fromGlass toGlass)
    · exact Int.dvd_sub (h.dvd fromGlass) (h.dvd_amount fromGlass toGlass)
    · exact h.dvd g

/-- Every move keeps what is attainable. -/
theorem Attainable.change (h : Attainable capacity state) (move : Move n) :
    Attainable capacity (move.change capacity state) := by
  cases move with
  | Empty glass => exact h.empty glass
  | Fill glass => exact h.fill glass
  | Pour fromGlass toGlass => exact h.pour fromGlass toGlass

/-- Every history leads to an attainable state. -/
theorem attainable_replay (hcap : ∀ glass, 0 ≤ capacity glass) (history : List (Move n)) :
    Attainable capacity ((system capacity).replay history) := by
  induction history with
  | nil => exact attainable_initialState hcap
  | cons move history ih => exact ih.change move

end accelerators.pouring
