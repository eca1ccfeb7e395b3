import Accelerators.Sums.Range

open loops

namespace accelerators.sums

variable {a b : Int32}

/-- Nothing is larger than the largest number, so the counter wraps around for
    ever. -/
theorem exists_stop_iff : (∃ k, decide ((fun a : Int32 => a + 1)^[k] a > b) = true) ↔ b < Int32.maxValue := by
  constructor
  · rintro ⟨k, hk⟩
    rw [decide_eq_true_iff, gt_iff_lt, Int32.lt_iff_toInt_lt] at hk
    rw [Int32.lt_iff_toInt_lt]
    exact hk.trans_le (Int32.toInt_le _)
  · intro hb
    exact ⟨_, (stopsAfter_upTo hb).2⟩

theorem sumBig_returns_iff (f : Int32 → Int32) : (∃ fuel v, sumBig f a b fuel = some v) ↔ b < Int32.maxValue :=
  accumulate_returns_iff.trans exists_stop_iff

theorem product_returns_iff (f : Int32 → Int32) : (∃ fuel v, product f a b fuel = some v) ↔ b < Int32.maxValue :=
  recur_returns_iff.trans exists_stop_iff

/-- The loops end exactly if the upper bound is not the largest number. -/
theorem loops_end_iff (f : Int32 → Int32) (a b : Int32) :
    ((∃ fuel v, sumBig f a b fuel = some v) ↔ b < Int32.maxValue) ∧
    ((∃ fuel v, product f a b fuel = some v) ↔ b < Int32.maxValue) :=
  ⟨sumBig_returns_iff f, product_returns_iff f⟩

theorem loops_never_end : ¬ ∀ (f : Int32 → Int32) (a b : Int32),
    (∃ fuel v, sumBig f a b fuel = some v) ∧ ∃ fuel v, product f a b fuel = some v := by
  intro h
  obtain ⟨hsum, -⟩ := h (fun x => x) 1 Int32.maxValue
  exact absurd ((sumBig_returns_iff _).mp hsum) (by decide)

end accelerators.sums
