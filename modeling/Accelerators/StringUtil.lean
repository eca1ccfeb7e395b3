import Accelerators.Reversal

open reversal

namespace accelerators.stringutil

variable {α : Type} {n : Nat}

/-- `r[i], r[j] = r[j], r[i]`, which panics at an index outside the slice. -/
def swap (r : Vector α n) (i j : Int) : Option (Vector α n) :=
  if h : (0 ≤ i ∧ i < n) ∧ 0 ≤ j ∧ j < n then some (r.swap i.toNat j.toNat (by omega) (by omega)) else none

/-- The loop of `Reverse`, with both of its indices. -/
def Reverse.loop (r : Vector α n) (i j : Int) : Option (Vector α n) :=
  if i < (n : Int) / 2 then (swap r i j).bind fun r => Reverse.loop r (i + 1) (j - 1) else some r
termination_by ((n : Int) / 2 - i).toNat

/-- A `string` of valid UTF-8 is a `String`, and its runes are its characters. -/
def Reverse (s : String) : Option String :=
  let r : Vector Char s.toList.length := ⟨s.toList.toArray, List.size_toArray⟩
  (Reverse.loop r 0 ((s.toList.length : Int) - 1)).map fun r => String.ofList r.toList

theorem swap_eq {r : Vector α n} {i j : Int} {k l : Nat} (hi : i = k) (hj : j = l) (hk : k < n) (hl : l < n) :
    swap r i j = some (r.swap k l) := by
  subst hi hj
  exact dif_pos ⟨⟨by omega, by omega⟩, by omega, by omega⟩

/-- The loop goes on from `k` exchanged entries at each end to the whole slice. -/
theorem Reverse.loop_eq {old r : Vector α n} {i j : Int} {k : Nat} (hi : i = k) (hj : j = n - 1 - k)
    (h : OuterReversed old k r) :
    ∃ r' : Vector α n, Reverse.loop r i j = some r' ∧ r'.toList = old.toList.reverse := by
  fun_induction Reverse.loop r i j generalizing k with
  | case1 r i j hlt ih =>
    have hk : k < n - 1 - k := by omega
    have hswap : swap r i j = some (r.swap k (n - 1 - k)) := swap_eq hi (by omega) (by omega) (by omega)
    obtain ⟨r', hloop, hr'⟩ := ih (r.swap k (n - 1 - k)) (k := k + 1) (by omega) (by omega) (h.swap hk)
    exact ⟨r', by rw [hswap, Option.bind_some, hloop], hr'⟩
  | case2 r i j hge => exact ⟨r, rfl, h.toList_eq (by omega)⟩

/-- The runes come back in reverse, without a panic. -/
theorem Reverse_eq (s : String) : Reverse s = some (String.ofList s.toList.reverse) := by
  obtain ⟨r, hloop, hr⟩ := Reverse.loop_eq (i := 0) rfl (Int.sub_zero _).symm
    (OuterReversed.zero (r := ⟨s.toList.toArray, List.size_toArray⟩))
  rw [Reverse, hloop, Option.map_some, hr]
  rfl

/-- The number of bytes of the encoded runes does not depend on their order. -/
theorem size_utf8Encode_reverse (l : List Char) : l.reverse.utf8Encode.size = l.utf8Encode.size := by
  induction l with
  | nil => rfl
  | cons c l ih =>
    have hcons : (c :: l).utf8Encode = [c].utf8Encode ++ l.utf8Encode := List.utf8Encode_cons
    rw [List.reverse_cons, List.utf8Encode_append, ByteArray.size_append, ih, hcons, ByteArray.size_append,
      Nat.add_comm]

/-- `Reverse` exchanges the order of the runes and of two strings, keeps the number of
    bytes, and undoes itself. -/
theorem Reverse_laws (s t : String) : ∃ rs rt, Reverse s = some rs ∧ Reverse t = some rt ∧
    rs.toList = s.toList.reverse ∧
    rs.toByteArray.IsValidUTF8 ∧ rs.toByteArray.size = s.toByteArray.size ∧
    Reverse rs = some s ∧ Reverse (s ++ t) = some (rt ++ rs) := by
  refine ⟨_, _, Reverse_eq s, Reverse_eq t, String.toList_ofList, String.isValidUTF8 _, ?_, ?_, ?_⟩
  · rw [String.toByteArray_ofList, size_utf8Encode_reverse, String.utf8Encode_toList]
  · rw [Reverse_eq, String.toList_ofList, List.reverse_reverse, String.ofList_toList]
  · rw [Reverse_eq, String.toList_append, List.reverse_append, String.ofList_append]

example : Reverse "Hello, 世界" = some "界世 ,olleH" := (Reverse_eq _).trans rfl

end accelerators.stringutil
