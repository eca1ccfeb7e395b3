import Accelerators.BitWindows
import Accelerators.Crypt

open bit_windows

namespace accelerators.crypt

variable {userkey : Vector Int16 8} {key : List Nat} {a g r m p : Nat}

/-- The user key as one number of 128 bits, with its first word in the lowest ones. -/
def secret (userkey : Vector Int16 8) : BitVec 128 :=
  BitVec.ofNat 128 (Nat.ofDigits (2 ^ 16) ((List.range 8).map (keyWord userkey)))

theorem getLsbD_secret (hp : p < 128) :
    (secret userkey).getLsbD p = (keyWord userkey (p / 16)).testBit (p % 16) := by
  have hwords : ∀ v ∈ (List.range 8).map (keyWord userkey), v < 2 ^ 16 := by
    intro v hv
    obtain ⟨i, -, rfl⟩ := List.mem_map.mp hv
    exact UInt16.toNat_lt _
  rw [secret, BitVec.getLsbD_ofNat, decide_eq_true hp, Bool.true_and, testBit_ofDigits (by omega) hwords,
    List.getD_eq_getElem?_getD, List.getElem?_map, List.getElem?_range (by omega)]
  rfl

/-- The word at `i % 8`, from the lowest on, of the user key when it is rotated to the right
    by 25 bits for every group of eight words before that of `i`. -/
def scheduled (userkey : Vector Int16 8) (i : Nat) : Nat := window (secret userkey) 16 (25 * (i / 8) + 16 * (i % 8))

theorem scheduled_eq (hr : r < 8) (h : (25 * g + 16 * r) % 128 = p % 128) :
    scheduled userkey (8 * g + r) = window (secret userkey) 16 p := by
  have hdiv : (8 * g + r) / 8 = g := by omega
  have hmod : (8 * g + r) % 8 = r := by omega
  rw [scheduled, hdiv, hmod, window_congr h]

theorem keyWord_eq (hr : r < 8) : keyWord userkey r = scheduled userkey r := by
  have hscheduled : scheduled userkey r = window (secret userkey) 16 (16 * r) := by
    rw [← scheduled_eq (g := 0) hr (by omega), Nat.mul_zero, Nat.zero_add]
  rw [hscheduled]
  apply Nat.eq_of_testBit_eq
  intro b
  by_cases hb : b < 16
  · have hp : (16 * r + b) % 128 = 16 * r + b := by omega
    have hword : (16 * r + b) / 16 = r := by omega
    have hbit : (16 * r + b) % 16 = b := by omega
    rw [testBit_window hb (by omega), hp, getLsbD_secret (by omega), hword, hbit]
  · have hlt : keyWord userkey r < 2 ^ b :=
      Nat.lt_of_lt_of_le (UInt16.toNat_lt _) (Nat.pow_le_pow_right Nat.two_pos (by omega))
    rw [testBit_window_of_le (by omega), Nat.testBit_lt_two_pow hlt]

/-- Two words that follow each other in the rotated user key make a third one. -/
theorem scheduled_shift {j k i : Nat} (hj : scheduled userkey j = window (secret userkey) 16 p)
    (hk : scheduled userkey k = window (secret userkey) 16 (p + 16))
    (hi : scheduled userkey i = window (secret userkey) 16 (p + 9)) :
    (scheduled userkey j >>> 9 ||| scheduled userkey k <<< 7) &&& 0xffff = scheduled userkey i := by
  rw [hj, hk, hi]
  exact funnel (w := 16) (s := 9) (by omega) (by omega)

/-- The words of a group of eight come from the group before it, whose first words
    follow its last one. -/
theorem subkey_eq {i : Nat} (hi : 8 ≤ i) (hkey : ∀ j < i, key.getD j 0 = scheduled userkey j) :
    subkey key i = scheduled userkey i := by
  obtain ⟨g, r, hr, rfl⟩ : ∃ g r, r < 8 ∧ i = 8 * (g + 1) + r := ⟨i / 8 - 1, i % 8, by omega, by omega⟩
  have hmod : (8 * (g + 1) + r) % CHUNK_SIZE = r := by
    rw [CHUNK_SIZE]
    omega
  simp only [subkey, hmod]
  split_ifs with hlow heq
  · have hj : 8 * (g + 1) + r - 7 = 8 * g + (r + 1) := by omega
    have hk : 8 * (g + 1) + r - 6 = 8 * g + (r + 2) := by omega
    rw [hkey _ (by omega), hkey _ (by omega), hj, hk]
    exact scheduled_shift (p := 25 * g + 16 * (r + 1)) (scheduled_eq (by omega) (by omega))
      (scheduled_eq (by omega) (by omega)) (scheduled_eq hr (by omega))
  · have hj : 8 * (g + 1) + r - 7 = 8 * g + 7 := by omega
    have hk : 8 * (g + 1) + r - 14 = 8 * g + 0 := by omega
    rw [hkey _ (by omega), hkey _ (by omega), hj, hk]
    exact scheduled_shift (p := 25 * g + 16 * 7) (scheduled_eq (by omega) (by omega))
      (scheduled_eq (by omega) (by omega)) (scheduled_eq hr (by omega))
  · have hj : 8 * (g + 1) + r - 15 = 8 * g + 0 := by omega
    have hk : 8 * (g + 1) + r - 14 = 8 * g + 1 := by omega
    rw [hkey _ (by omega), hkey _ (by omega), hj, hk]
    exact scheduled_shift (p := 25 * g) (scheduled_eq (by omega) (by omega))
      (scheduled_eq (by omega) (by omega)) (scheduled_eq hr (by omega))

/-- A loop that fills the key in order, when every value depends on the ones before it. -/
theorem foldl_set_eq {value : List Nat → Nat → Nat} {f : Nat → Nat}
    (hvalue : ∀ key i, a ≤ i → i < a + m → (∀ j < i, key.getD j 0 = f j) → value key i = f i)
    (hlength : a + m ≤ key.length) (hkey : ∀ j < a, key.getD j 0 = f j) :
    ((List.range' a m).foldl (fun key i => key.set i (value key i)) key).length = key.length ∧
      ∀ j < a + m, ((List.range' a m).foldl (fun key i => key.set i (value key i)) key).getD j 0 = f j := by
  induction m generalizing a key with
  | zero => exact ⟨rfl, hkey⟩
  | succ m ih =>
    have hset : ∀ j < a + 1, (key.set a (value key a)).getD j 0 = f j := by
      intro j hj
      rw [List.getD_eq_getElem?_getD, List.getElem?_set]
      by_cases heq : a = j
      · subst heq
        rw [if_pos rfl, if_pos (by omega), Option.getD_some, hvalue key a le_rfl (by omega) hkey]
      · rw [if_neg heq, ← List.getD_eq_getElem?_getD, hkey j (by omega)]
    obtain ⟨hlen, hall⟩ := ih (fun key i hle hlt => hvalue key i (by omega) (by omega))
      (by rw [List.length_set]; omega) hset
    rw [List.range'_succ, List.foldl_cons]
    exact ⟨hlen.trans List.length_set, fun j hj => hall j (by omega)⟩

/-- Each group of eight words of the key for encryption is the user key, its first word lowest,
    rotated by 25 bits more to the right than for the group before it. -/
theorem generateEncryptKey_eq (userkey : Vector Int16 8) :
    generateEncryptKey userkey = (List.range KEY_LENGTH).map (scheduled userkey) := by
  have hzero : (List.replicate KEY_LENGTH 0).length = KEY_LENGTH := List.length_replicate
  have hkeyWord : ∀ r < 0 + CHUNK_SIZE, keyWord userkey r = scheduled userkey r := fun _ hr => keyWord_eq hr
  have hstart : ∀ j < 0, (List.replicate KEY_LENGTH 0).getD j 0 = scheduled userkey j := nofun
  obtain ⟨hlength, hfirst⟩ := foldl_set_eq (a := 0) (m := CHUNK_SIZE) (fun _ i _ hlt _ => hkeyWord i hlt)
    (by rw [hzero]; decide) hstart
  rw [Nat.zero_add] at hfirst
  have hsubkey : ∀ key i, CHUNK_SIZE ≤ i → i < CHUNK_SIZE + (KEY_LENGTH - CHUNK_SIZE) →
      (∀ j < i, key.getD j 0 = scheduled userkey j) → subkey key i = scheduled userkey i :=
    fun _ _ hle _ hkey => subkey_eq hle hkey
  obtain ⟨hlength', hall⟩ := foldl_set_eq hsubkey (by rw [hlength, hzero]; decide) hfirst
  rw [generateEncryptKey, List.range_eq_range']
  apply List.ext_getElem
  · rw [hlength', hlength, hzero, List.length_map, List.length_range]
  · intro i hi hi'
    rw [List.length_map, List.length_range] at hi'
    rw [List.getElem_map, List.getElem_range, ← hall i (by exact hi'), List.getD_eq_getElem _ _ hi]

end accelerators.crypt
