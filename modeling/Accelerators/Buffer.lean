import Mathlib.Data.List.Basic

namespace buffer

variable {α : Type} {n : Nat} {old buf : Vector α n} {written : List α}

/-- The entries from the first one on are `written`, all later ones are as before. -/
def Filled (old : Vector α n) (written : List α) (buf : Vector α n) : Prop :=
  buf.toList = written ++ old.toList.drop written.length

theorem Filled.nil : Filled buf [] buf := rfl

/-- A store behind the last written entry. -/
theorem Filled.set (h : Filled old written buf) (hlt : written.length < n) (x : α) :
    Filled old (written ++ [x]) (buf.set written.length x hlt) := by
  have hdrop : written.length < old.toList.length := by rwa [Vector.length_toList]
  rw [Filled] at h
  rw [Filled, Vector.toList_set, h, List.set_append_right _ _ (Nat.le_refl _), Nat.sub_self,
    List.drop_eq_getElem_cons hdrop, List.set_cons_zero, List.length_append, List.length_singleton,
    List.append_assoc, List.singleton_append]

theorem Filled.eq (h : Filled old written buf) (hall : written.length = n) : buf.toList = written := by
  rw [h, hall, List.drop_eq_nil_of_le (Nat.le_of_eq Vector.length_toList), List.append_nil]

/-- An entry behind the written ones. -/
theorem Filled.getElem?_eq (h : Filled old written buf) {i : Nat} (hle : written.length ≤ i) : buf[i]? = old[i]? := by
  rw [← Vector.getElem?_toList, ← Vector.getElem?_toList, h, List.getElem?_append_right hle, List.getElem?_drop,
    Nat.add_sub_cancel' hle]

end buffer
