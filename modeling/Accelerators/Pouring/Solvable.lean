import Accelerators.ModularSums
import Accelerators.Pouring.Capacity

open breadth_first modular_sums

namespace accelerators.pouring

variable {n : Nat} {capacity state : State n} {order : SetOrder (Path n)} {m i : Fin n} {r : Int}

theorem empty_mem_moves (glass : Fin n) : .Empty glass ∈ moves n := by
  simp [moves, glasses]

theorem fill_mem_moves (glass : Fin n) : .Fill glass ∈ moves n := by
  simp [moves, glasses]

theorem pour_mem_moves {fromGlass toGlass : Fin n} (h : fromGlass ≠ toGlass) :
    .Pour fromGlass toGlass ∈ moves n := by
  simp [moves, glasses, h]

theorem solution_ne_nil_iff (target : Int32) : solution capacity order target ≠ [] ↔
    ∃ history, (system capacity).Plays history ∧ ∃ glass, (system capacity).replay history glass = target := by
  constructor
  · intro hne
    obtain ⟨path, hpath⟩ := List.exists_mem_of_ne_nil _ hne
    obtain ⟨hgeodesic, hend, htarget⟩ := mem_solution.mp hpath
    exact ⟨path.history, hgeodesic.1, hend ▸ htarget⟩
  · rintro ⟨history, hplays, htarget⟩
    obtain ⟨best, hbest, hreplay, -⟩ := hplays.exists_geodesic
    have hmem : (⟨best, (system capacity).replay best⟩ : Path n) ∈ solution capacity order target :=
      mem_solution.mpr ⟨hbest, rfl, by simpa only [hreplay] using htarget⟩
    exact List.ne_nil_of_mem hmem

/-- The glass `m` holds `r`, and all others are empty. -/
def OnlyIn (m : Fin n) (r : Int) (state : State n) : Prop :=
  ∀ g, (state g).toInt = if g = m then r else 0

/-- A full glass is poured into `m`, which has room for it. -/
theorem OnlyIn.pour_all (h : OnlyIn m r state) (hatt : Attainable capacity state) (hi : i ≠ m)
    (hfits : r + (capacity i).toInt ≤ (capacity m).toInt) :
    OnlyIn m (r + (capacity i).toInt)
      ((Move.Pour i m).change capacity ((Move.Fill i).change capacity state)) := by
  have hamount : amount capacity ((Move.Fill i).change capacity state) i m = (capacity i).toInt := by
    simp only [amount, toInt_fill, if_neg hi.symm, if_true, h m]
    omega
  intro g
  rw [(hatt.fill i).within.toInt_pour, hamount]
  simp only [toInt_fill, if_neg hi.symm, if_true, h m, h g]
  split_ifs <;> omega

/-- A full glass is poured into `m`, which is emptied in between because it
    has no room for all of it. -/
theorem OnlyIn.pour_twice (h : OnlyIn m r state) (hatt : Attainable capacity state) (hi : i ≠ m)
    (hmax : (capacity i).toInt ≤ (capacity m).toInt)
    (hfull : (capacity m).toInt ≤ r + (capacity i).toInt) :
    OnlyIn m (r + (capacity i).toInt - (capacity m).toInt)
      ((Move.Pour i m).change capacity ((Move.Empty m).change capacity
        ((Move.Pour i m).change capacity ((Move.Fill i).change capacity state)))) := by
  have hfilled := hatt.fill i
  have hpoured := hfilled.pour i m
  have hroom : r ≤ (capacity m).toInt := by simpa [h m] using (hatt.within m).2
  have hamount : amount capacity ((Move.Fill i).change capacity state) i m = (capacity m).toInt - r := by
    simp only [amount, toInt_fill, if_neg hi.symm, if_true, h m]
    omega
  have hrest : amount capacity ((Move.Empty m).change capacity
      ((Move.Pour i m).change capacity ((Move.Fill i).change capacity state))) i m =
      r + (capacity i).toInt - (capacity m).toInt := by
    rw [amount]
    simp only [toInt_empty, hfilled.within.toInt_pour, hamount, toInt_fill, if_neg hi, if_true]
    omega
  intro g
  rw [(hpoured.empty m).within.toInt_pour, hrest]
  simp only [toInt_empty, hfilled.within.toInt_pour, hamount, toInt_fill, if_neg hi, if_true, h g]
  split_ifs <;> omega

/-- What the glass `m` can hold alone, as residues modulo its capacity. -/
def residues (capacity : State n) (m : Fin n) : Set Int :=
  {z | ∃ history, (system capacity).Plays history ∧
    OnlyIn m (z % (capacity m).toInt) ((system capacity).replay history)}

theorem zero_mem_residues (capacity : State n) (m : Fin n) : 0 ∈ residues capacity m := by
  refine ⟨[], (system capacity).plays_nil, fun g => ?_⟩
  rw [Int.zero_emod, ite_self]
  rfl

/-- With the largest glass for `m`, each capacity can be added. -/
theorem residues_closedUnder (hcap : ∀ glass, 0 ≤ capacity glass) (hpos : 0 < (capacity m).toInt)
    (hmax : ∀ g, (capacity g).toInt ≤ (capacity m).toInt) (i : Fin n) :
    ClosedUnder (capacity m).toInt (residues capacity m) (capacity i).toInt where
  periodic := by
    rintro z ⟨history, hplays, honly⟩ k
    exact ⟨history, hplays, by rwa [Int.add_mul_emod_self_right]⟩
  add := by
    rintro z ⟨history, hplays, honly⟩
    have hatt := attainable_replay hcap history
    have hlt := Int.emod_lt_of_pos z hpos
    have hnonneg := Int.emod_nonneg z hpos.ne'
    have hstep : (z + (capacity i).toInt) % (capacity m).toInt =
        (z % (capacity m).toInt + (capacity i).toInt) % (capacity m).toInt := (Int.emod_add_emod _ _ _).symm
    have hi := (attainable_initialState hcap).within i
    by_cases him : i = m
    · subst him
      exact ⟨history, hplays, by rwa [Int.add_emod_right]⟩
    obtain hfits | hfull := lt_or_ge (z % (capacity m).toInt + (capacity i).toInt) (capacity m).toInt
    · refine ⟨.Pour i m :: .Fill i :: history, ?_, ?_⟩
      · simp only [System.plays_cons]
        exact ⟨pour_mem_moves him, fill_mem_moves i, hplays⟩
      · rw [hstep, Int.emod_eq_of_lt (by omega) hfits]
        exact honly.pour_all hatt him hfits.le
    · refine ⟨.Pour i m :: .Empty m :: .Pour i m :: .Fill i :: history, ?_, ?_⟩
      · simp only [System.plays_cons]
        exact ⟨pour_mem_moves him, empty_mem_moves m, pour_mem_moves him, fill_mem_moves i, hplays⟩
      · have hi' := hmax i
        rw [hstep, Int.emod_eq_sub_self_emod, Int.emod_eq_of_lt (by omega) (by omega)]
        exact honly.pour_twice hatt him hi' hfull

/-- The largest glass can be made to hold every multiple of the common divisor. -/
theorem exists_history_of_dvd (hcap : ∀ glass, 0 ≤ capacity glass)
    (hmax : ∀ g, (capacity g).toInt ≤ (capacity m).toInt) {t : Int} (hnonneg : 0 ≤ t)
    (hle : t ≤ (capacity m).toInt) (hdvd : gcdCapacity capacity ∣ t) :
    ∃ history, (system capacity).Plays history ∧ ((system capacity).replay history m).toInt = t := by
  obtain rfl | hlt := hle.eq_or_lt
  · refine ⟨[.Fill m], ?_, ?_⟩
    · simp only [System.plays_cons, System.plays_nil, and_true]
      exact fill_mem_moves m
    · exact (toInt_fill m m).trans (if_pos rfl)
  · have hpos : 0 < (capacity m).toInt := hnonneg.trans_lt hlt
    have hmem := add_mem_of_gcd_dvd hpos (fun i _ => residues_closedUnder hcap hpos hmax i)
      (zero_mem_residues capacity m) hdvd
    obtain ⟨history, hplays, honly⟩ := hmem
    refine ⟨history, hplays, ?_⟩
    rw [honly m, if_pos rfl, zero_add, Int.emod_eq_of_lt hnonneg hlt]

/-- The largest capacity. -/
def maxCapacity [NeZero n] (capacity : State n) : Int :=
  Finset.univ.sup' Finset.univ_nonempty fun glass => (capacity glass).toInt

/-- The puzzle is solvable exactly for the multiples of the common divisor of
    the capacities that the largest glass has room for. -/
theorem solution_ne_nil_iff_dvd [NeZero n] (hcap : ∀ glass, 0 ≤ capacity glass)
    (order : SetOrder (Path n)) (target : Int32) :
    solution capacity order target ≠ [] ↔
      0 ≤ target.toInt ∧ target.toInt ≤ maxCapacity capacity ∧ gcdCapacity capacity ∣ target.toInt := by
  rw [solution_ne_nil_iff]
  constructor
  · rintro ⟨history, -, glass, rfl⟩
    have hatt := attainable_replay hcap history
    exact ⟨(hatt.within glass).1,
      (hatt.within glass).2.trans (Finset.le_sup' (fun g => (capacity g).toInt) (Finset.mem_univ glass)),
      hatt.dvd glass⟩
  · rintro ⟨hnonneg, hle, hdvd⟩
    obtain ⟨m, -, hm⟩ := Finset.exists_mem_eq_sup' Finset.univ_nonempty fun g => (capacity g).toInt
    have hmax : ∀ g, (capacity g).toInt ≤ (capacity m).toInt := fun g =>
      hm ▸ Finset.le_sup' (fun g => (capacity g).toInt) (Finset.mem_univ g)
    obtain ⟨history, hplays, hholds⟩ := exists_history_of_dvd hcap hmax hnonneg (hm ▸ hle) hdvd
    exact ⟨history, hplays, m, Int32.toInt_inj.mp hholds⟩

/-- The puzzle of the source: glasses of 4, 7 and 19 can measure 6. -/
theorem solution_ne_nil_of_three_glasses : solution ![4, 7, 19] default 6 ≠ [] :=
  (solution_ne_nil_iff_dvd (by decide) default 6).mpr (by decide)

end accelerators.pouring
