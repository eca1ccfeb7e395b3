import Mathlib.Algebra.Ring.Int.Defs
import Mathlib.Algebra.Ring.Nat
import Accelerators.BitMasking

open counters

namespace accelerators.bit_masking

variable {x y z offset : Int32}

/-- A coordinate that the assertions let pass. -/
def InRange (x : Int32) : Prop := 0 ≤ x ∧ x < 8

instance : DecidablePred InRange := fun _ => inferInstanceAs (Decidable (_ ∧ _))

theorem InRange.bounds (h : InRange x) : 0 ≤ x.toInt ∧ x.toInt < 8 := by
  obtain ⟨hle, hlt⟩ := h
  rw [Int32.le_iff_toInt_le] at hle
  rw [Int32.lt_iff_toInt_lt] at hlt
  exact ⟨hle, hlt⟩

/-- The mask leaves a coordinate as it is. -/
theorem InRange.toNat_and (h : InRange x) : ((x.toUInt32 &&& (DIM.toUInt32 - 1)).toNat : Int) = x.toInt := by
  obtain ⟨hle, hlt⟩ := h.bounds
  have hx := toNat_toUInt32 hle
  have hmask : (DIM.toUInt32 - 1).toNat = 2 ^ 3 - 1 := by decide
  rw [UInt32.toNat_and, hmask, Nat.and_two_pow_sub_one_eq_mod, Nat.mod_eq_of_lt (by omega), hx]

theorem toOffset_isSome : (toOffset x y z).isSome ↔ InRange x ∧ InRange y ∧ InRange z := by
  rw [toOffset, InRange, InRange, InRange]
  split_ifs with h
  · simp only [Option.isSome_some, true_iff]
    exact ⟨⟨h.2.1, h.1.1⟩, ⟨h.2.2.1, h.1.2.1⟩, h.2.2.2, h.1.2.2⟩
  · simp only [Option.isSome_none, Bool.false_eq_true, false_iff]
    rintro ⟨hx, hy, hz⟩
    exact h ⟨⟨hx.2, hy.2, hz.2⟩, hx.1, hy.1, hz.1⟩

theorem toInt_toOffset (h : toOffset x y z = some offset) :
    (InRange x ∧ InRange y ∧ InRange z) ∧ offset.toInt = 64 * x.toInt + 8 * y.toInt + z.toInt := by
  have hrange := toOffset_isSome.mp (Option.isSome_of_eq_some h)
  refine ⟨hrange, ?_⟩
  obtain ⟨hx, hy, hz⟩ := hrange
  have hxbounds := hx.bounds
  have hybounds := hy.bounds
  have hzbounds := hz.bounds
  have hxmask := hx.toNat_and
  have hymask := hy.toNat_and
  have hzmask := hz.toNat_and
  have hsix : ((2 * Log2Dim).toUInt32.toNat) % 32 = 6 := by decide
  have hthree : Log2Dim.toUInt32.toNat % 32 = 3 := by decide
  rw [toOffset] at h
  split_ifs at h
  obtain rfl := Option.some.inj h
  generalize x.toUInt32 &&& (DIM.toUInt32 - 1) = x' at hxmask
  generalize y.toUInt32 &&& (DIM.toUInt32 - 1) = y' at hymask
  generalize z.toUInt32 &&& (DIM.toUInt32 - 1) = z' at hzmask
  have hrow : (x' <<< (2 * Log2Dim).toUInt32).toNat = x'.toNat * 64 := by
    rw [UInt32.toNat_shiftLeft, hsix, Nat.shiftLeft_eq, Nat.mod_eq_of_lt (by omega)]
  have hcolumn : (y' <<< Log2Dim.toUInt32).toNat = y'.toNat * 8 := by
    rw [UInt32.toNat_shiftLeft, hthree, Nat.shiftLeft_eq, Nat.mod_eq_of_lt (by omega)]
  simp only [UInt32.toUInt32_toInt32]
  rw [toInt_toInt32]
  · rw [UInt32.toNat_add, UInt32.toNat_add, hrow, hcolumn]
    omega
  · rw [UInt32.toNat_add, UInt32.toNat_add, hrow, hcolumn]
    omega

theorem toInt_shiftRight {n s : Int32} {k : Nat} (hs : (s.toBitVec.smod 32).toNat = k) :
    (n >>> s).toInt = n.toInt / 2 ^ k := by
  change (n >>> s).toBitVec.toInt = n.toInt / 2 ^ k
  rw [Int32.toBitVec_shiftRight, BitVec.toInt_sshiftRight', hs, Int.shiftRight_eq_div_pow]
  rfl

theorem toInt_and_mask {n : Int32} (mask : Int32) {k : Nat} (hn : 0 ≤ n.toInt)
    (hmask : mask.toUInt32.toNat = 2 ^ k - 1) :
    (n &&& mask).toInt = n.toInt % 2 ^ k := by
  have hunsigned := toNat_toUInt32 hn
  have hupper := n.toInt_lt
  have hand : (n.toUInt32 &&& mask.toUInt32).toNat = n.toUInt32.toNat % 2 ^ k := by
    rw [UInt32.toNat_and, hmask, Nat.and_two_pow_sub_one_eq_mod]
  have hle := Nat.mod_le n.toUInt32.toNat (2 ^ k)
  rw [← Int32.toInt32_toUInt32 (n &&& mask), Int32.toUInt32_and, toInt_toInt32 (by omega), hand, Int.natCast_emod,
    hunsigned]
  rfl

/-- The three digits of an offset to the base `8`. -/
theorem toInt_fromOffset (offset : Int32) (hoffset : 0 ≤ offset.toInt) :
    (fromOffset offset).1.toInt = offset.toInt / 64 ∧
    (fromOffset offset).2.1.toInt = offset.toInt % 64 / 8 ∧
    (fromOffset offset).2.2.toInt = offset.toInt % 64 % 8 := by
  have hrest := toInt_and_mask ((1 <<< (Log2Dim + Log2Dim)) - 1) (k := 6) hoffset (by decide)
  have hnonneg : 0 ≤ (offset &&& ((1 <<< (Log2Dim + Log2Dim)) - 1)).toInt := by omega
  refine ⟨?_, ?_, ?_⟩
  · rw [fromOffset, toInt_shiftRight (k := 6) (by decide)]
    rfl
  · rw [fromOffset, toInt_shiftRight (k := 3) (by decide), hrest]
    rfl
  · rw [fromOffset, toInt_and_mask _ (k := 3) hnonneg (by decide), hrest]
    rfl

/-- Every offset of the leaf is that of one cell, and `fromOffset` finds it. -/
theorem toOffset_eq_some_iff :
    toOffset x y z = some offset ↔ (0 ≤ offset ∧ offset < 512) ∧ fromOffset offset = (x, y, z) := by
  rw [Int32.le_iff_toInt_le, Int32.lt_iff_toInt_lt, Int32.toInt_zero, show (512 : Int32).toInt = 512 from rfl]
  constructor
  · intro h
    obtain ⟨⟨hx, hy, hz⟩, hoffset⟩ := toInt_toOffset h
    have hxbounds := hx.bounds
    have hybounds := hy.bounds
    have hzbounds := hz.bounds
    obtain ⟨h1, h2, h3⟩ := toInt_fromOffset offset (by omega)
    refine ⟨by omega, ?_⟩
    rw [Prod.ext_iff, Prod.ext_iff, ← Int32.toInt_inj, ← Int32.toInt_inj, ← Int32.toInt_inj, h1, h2, h3]
    dsimp only
    omega
  · rintro ⟨⟨hle, hlt⟩, hfrom⟩
    obtain ⟨h1, h2, h3⟩ := toInt_fromOffset offset hle
    rw [hfrom] at h1 h2 h3
    dsimp only at h1 h2 h3
    have hrange : (toOffset x y z).isSome := by
      rw [toOffset_isSome]
      simp only [InRange, Int32.le_iff_toInt_le, Int32.lt_iff_toInt_lt, Int32.toInt_zero,
        show (8 : Int32).toInt = 8 from rfl]
      omega
    obtain ⟨offset', hoffset'⟩ := Option.isSome_iff_exists.mp hrange
    have heq := (toInt_toOffset hoffset').2
    rw [hoffset', Option.some.injEq, ← Int32.toInt_inj]
    omega

end accelerators.bit_masking
