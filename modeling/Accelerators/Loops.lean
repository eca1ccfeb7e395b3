import Mathlib.Data.List.Iterate
import Mathlib.Data.Nat.Find

namespace loops

variable {S R : Type}

/-- `if (stop(s)) base else combine(s, recur(next(s)))`, for as many calls as there
    is fuel. -/
def recur (stop : S → Bool) (next : S → S) (base : R) (combine : S → R → R) : (fuel : Nat) → S → Option R
  | 0, _ => none
  | fuel + 1, s => if stop s then some base else (recur stop next base combine fuel (next s)).map (combine s)

/-- `if (stop(s)) acc else accumulate(next(s), combine(acc, s))`, likewise. -/
def accumulate (stop : S → Bool) (next : S → S) (combine : R → S → R) : (fuel : Nat) → S → R → Option R
  | 0, _, _ => none
  | fuel + 1, s, acc => if stop s then some acc else accumulate stop next combine fuel (next s) (combine acc s)

/-- The first state to stop at comes after `k` steps. -/
def StopsAfter (stop : S → Bool) (next : S → S) (k : Nat) (s : S) : Prop :=
  (∀ i < k, stop (next^[i] s) = false) ∧ stop (next^[k] s) = true

variable {stop : S → Bool} {next : S → S} {s : S} {k fuel : Nat}

theorem StopsAfter.tail (h : StopsAfter stop next (k + 1) s) : StopsAfter stop next k (next s) :=
  ⟨fun i hi => h.1 (i + 1) (Nat.succ_lt_succ hi), h.2⟩

theorem StopsAfter.head (h : StopsAfter stop next (k + 1) s) : stop s = false := h.1 0 (Nat.succ_pos k)

theorem exists_stopsAfter (h : ∃ k, stop (next^[k] s) = true) : ∃ k, StopsAfter stop next k s :=
  ⟨Nat.find h, fun _ hi => Bool.eq_false_of_not_eq_true (Nat.find_min h hi), Nat.find_spec h⟩

section
variable {base : R} {combine : S → R → R}

theorem StopsAfter.recur (h : StopsAfter stop next k s) (hfuel : k < fuel) :
    recur stop next base combine fuel s = some ((List.iterate next s k).foldr combine base) := by
  induction k generalizing s fuel with
  | zero =>
    obtain ⟨fuel, rfl⟩ := Nat.exists_eq_add_one_of_ne_zero (Nat.ne_zero_of_lt hfuel)
    exact if_pos h.2
  | succ k ih =>
    obtain ⟨fuel, rfl⟩ := Nat.exists_eq_add_one_of_ne_zero (Nat.ne_zero_of_lt hfuel)
    rw [loops.recur, h.head, ih h.tail (Nat.lt_of_succ_lt_succ hfuel)]
    rfl

theorem stop_of_recur {r : R} (h : loops.recur stop next base combine fuel s = some r) :
    ∃ k, stop (next^[k] s) = true := by
  induction fuel generalizing s r with
  | zero => cases h
  | succ fuel ih =>
    cases hstop : stop s with
    | true => exact ⟨0, hstop⟩
    | false =>
      rw [loops.recur, hstop] at h
      obtain ⟨r', hr', -⟩ := Option.map_eq_some_iff.mp h
      obtain ⟨k, hk⟩ := ih hr'
      exact ⟨k + 1, hk⟩

/-- A recursion returns if and only if it gets to a state to stop at. -/
theorem recur_returns_iff :
    (∃ fuel r, loops.recur stop next base combine fuel s = some r) ↔ ∃ k, stop (next^[k] s) = true := by
  constructor
  · rintro ⟨fuel, r, h⟩
    exact stop_of_recur h
  · intro h
    obtain ⟨k, hk⟩ := exists_stopsAfter h
    exact ⟨k + 1, _, hk.recur (Nat.lt_succ_self k)⟩

end

section
variable {combine : R → S → R} {acc : R}

theorem StopsAfter.accumulate (h : StopsAfter stop next k s) (hfuel : k < fuel) :
    accumulate stop next combine fuel s acc = some ((List.iterate next s k).foldl combine acc) := by
  induction k generalizing s acc fuel with
  | zero =>
    obtain ⟨fuel, rfl⟩ := Nat.exists_eq_add_one_of_ne_zero (Nat.ne_zero_of_lt hfuel)
    exact if_pos h.2
  | succ k ih =>
    obtain ⟨fuel, rfl⟩ := Nat.exists_eq_add_one_of_ne_zero (Nat.ne_zero_of_lt hfuel)
    rw [loops.accumulate, h.head, ih h.tail (Nat.lt_of_succ_lt_succ hfuel)]
    rfl

theorem stop_of_accumulate {r : R} (h : loops.accumulate stop next combine fuel s acc = some r) :
    ∃ k, stop (next^[k] s) = true := by
  induction fuel generalizing s acc with
  | zero => cases h
  | succ fuel ih =>
    cases hstop : stop s with
    | true => exact ⟨0, hstop⟩
    | false =>
      rw [loops.accumulate, hstop] at h
      obtain ⟨k, hk⟩ := ih h
      exact ⟨k + 1, hk⟩

theorem accumulate_returns_iff :
    (∃ fuel r, loops.accumulate stop next combine fuel s acc = some r) ↔ ∃ k, stop (next^[k] s) = true := by
  constructor
  · rintro ⟨fuel, r, h⟩
    exact stop_of_accumulate h
  · intro h
    obtain ⟨k, hk⟩ := exists_stopsAfter h
    exact ⟨k + 1, _, hk.accumulate (Nat.lt_succ_self k)⟩

end

end loops
