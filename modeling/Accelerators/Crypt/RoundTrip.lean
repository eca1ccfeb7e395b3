import Accelerators.Crypt.Inverse

namespace accelerators.crypt

variable {x y z : UInt16} {a b : Words} {k w z0 z1 z2 z3 : Nat} {key Z : List Nat} {i n : Nat}

/-- The multiplication by a word of the key can be undone. A product that is one less
    than the modulus is masked to zero. -/
def Kept (x : UInt16) (z : Nat) : Prop := x.toNat * z % 0x10001 ≠ 0x10000 ∧ (z = 0 → x = 0)

instance : Decidable (Kept x w) := inferInstanceAs (Decidable (_ ∧ _))

/-- What `inv` returns for a word. -/
structure Inverse (w k : Nat) : Prop where
  lt : k < 2 ^ 16
  inverse : w = 0 ∧ k = 0 ∨ k * w ≡ 1 [MOD 0x10001]

theorem exists_inverse (hw : w < 2 ^ 16) : ∃ k, inv w = some k ∧ Inverse w k := by
  obtain ⟨k, hk, hlt, hinverse⟩ := inv_spec hw
  exact ⟨k, hk, hlt, hinverse⟩

theorem mul_zero (x : UInt16) : mul x 0 = 0 := rfl

theorem zero_mul (k : Nat) : mul 0 k = 0 := by
  rw [mul, UInt16.toNat_zero, Nat.zero_mul]
  rfl

theorem toNat_mul (h : x.toNat * w % 0x10001 ≠ 0x10000) : (mul x w).toNat = x.toNat * w % 0x10001 := by
  have hlt := Nat.mod_lt (x.toNat * w) (show 0x10001 > 0 by decide)
  rw [mul, UInt16.toNat_ofNat_of_lt']
  change _ < 65536
  omega

theorem product_inverse (hinverse : k * w ≡ 1 [MOD 0x10001]) (x : UInt16) :
    x.toNat * w % 0x10001 * k % 0x10001 = x.toNat := by
  have hlt := x.toNat_lt
  have hcongr := hinverse.mul_left x.toNat
  rw [Nat.mod_mul_mod, Nat.mul_assoc, Nat.mul_comm w, hcongr, Nat.mul_one, Nat.mod_eq_of_lt (by omega)]

/-- Multiplication by the inverse gives a word back exactly when it was kept. -/
theorem mul_mul_iff (h : Inverse w k) : mul (mul x w) k = x ↔ Kept x w := by
  obtain ⟨rfl, rfl⟩ | hinverse := h.inverse
  · rw [mul_zero, Kept, Nat.mul_zero]
    simp [eq_comm]
  · have hw : w ≠ 0 := by
      rintro rfl
      cases hinverse
    have hproduct := product_inverse hinverse x
    by_cases hmasked : x.toNat * w % 0x10001 = 0x10000
    · have hx : x ≠ 0 := by
        rintro rfl
        rw [UInt16.toNat_zero, Nat.zero_mul] at hmasked
        cases hmasked
      have hzero : mul x w = 0 := by
        rw [mul, hmasked]
        rfl
      rw [hzero, zero_mul, Kept]
      exact ⟨fun heq => absurd heq.symm hx, fun hkept => absurd hmasked hkept.1⟩
    · have hback : mul (mul x w) k = x := by
        rw [mul, toNat_mul hmasked, hproduct, UInt16.ofNat_toNat]
      exact ⟨fun _ => ⟨hmasked, fun hzero => absurd hzero hw⟩, fun _ => hback⟩

theorem add_neg (x : UInt16) (w : Nat) : add (add x w) (masked (-w)) = x := by
  have hx := x.toNat_lt
  have htoNat : ∀ n, (UInt16.ofNat n).toNat = n % 2 ^ 16 := fun n => UInt16.toNat_ofNat'
  rw [← UInt16.toNat_inj, add, add, masked, htoNat, htoNat]
  omega

/-- The half of a round that has to be undone with the inverse words. -/
def transform (z1 z2 z3 z4 : Nat) (a : Words) : Words := ⟨mul a.x1 z1, add a.x2 z2, add a.x3 z3, mul a.x4 z4⟩

/-- The other half. The two values that it masks the words with depend on what it does
    not change, the differences between the words. -/
def mix (z5 z6 : Nat) (a : Words) : Words :=
  let t2 := mul (a.x1 ^^^ a.x3) z5
  let t1 := mul (t2 + (a.x2 ^^^ a.x4)) z6
  let t2 := t1 + t2
  ⟨a.x1 ^^^ t1, a.x2 ^^^ t2, a.x3 ^^^ t1, a.x4 ^^^ t2⟩

def swap (a : Words) : Words := ⟨a.x1, a.x3, a.x2, a.x4⟩

theorem swap_swap (a : Words) : swap (swap a) = a := rfl

theorem round_eq (z1 z2 z3 z4 z5 z6 : Nat) (a : Words) :
    round z1 z2 z3 z4 z5 z6 a = swap (mix z5 z6 (transform z1 z2 z3 z4 a)) := by
  simp only [round, swap, mix, transform, UInt16.xor_comm]

theorem finish_eq (z1 z2 z3 z4 : Nat) (a : Words) : finish z1 z2 z3 z4 a = transform z1 z2 z3 z4 (swap a) := rfl

theorem xor_difference (x y z : UInt16) : (x ^^^ z) ^^^ (y ^^^ z) = x ^^^ y := by
  rw [UInt16.xor_comm y, ← UInt16.xor_assoc, UInt16.xor_assoc x, UInt16.xor_self, UInt16.xor_zero]

theorem xor_cancel (x z : UInt16) : (x ^^^ z) ^^^ z = x := by
  rw [UInt16.xor_assoc, UInt16.xor_self, UInt16.xor_zero]

theorem mix_mix (z5 z6 : Nat) (a : Words) : mix z5 z6 (mix z5 z6 a) = a := by
  simp only [mix, xor_difference, xor_cancel]

section
variable {k0 k3 : Nat} (h0 : Inverse z0 k0) (h3 : Inverse z3 k3) (hx1 : Kept a.x1 z0) (hx4 : Kept a.x4 z3)
include h0 h3 hx1 hx4

theorem transform_undo (z1 z2 : Nat) :
    transform k0 (masked (-z1)) (masked (-z2)) k3 (transform z0 z1 z2 z3 a) = a := by
  simp only [transform, (mul_mul_iff h0).mpr hx1, (mul_mul_iff h3).mpr hx4, add_neg]

/-- Between the rounds the two words in the middle are swapped, and so are their words of
    the key. -/
theorem transform_undo_swap (z1 z2 : Nat) :
    transform k0 (masked (-z2)) (masked (-z1)) k3 (swap (transform z0 z1 z2 z3 a)) = swap a := by
  simp only [transform, swap, (mul_mul_iff h0).mpr hx1, (mul_mul_iff h3).mpr hx4, add_neg]

end

/-- The words that the last `r` rounds multiply by a word of the key whose inverse is in
    the other key, with that word. -/
def products : (r : Nat) → Words → (key : List Nat) → List (UInt16 × Nat)
  | 0, a, z1 :: _ :: _ :: z4 :: _ => [(a.x1, z1), (a.x4, z4)]
  | r + 1, a, z1 :: z2 :: z3 :: z4 :: z5 :: z6 :: key =>
    (a.x1, z1) :: (a.x4, z4) :: products r (round z1 z2 z3 z4 z5 z6 a) key
  | _, _, _ => []

/-- Nothing is lost in the last `r` rounds. -/
def Recoverable (r : Nat) (a : Words) (key : List Nat) : Prop := ∀ p ∈ products r a key, Kept p.1 p.2

instance (r : Nat) (a : Words) (key : List Nat) : Decidable (Recoverable r a key) :=
  inferInstanceAs (Decidable (∀ p ∈ products r a key, Kept p.1 p.2))

/-- The key has words of sixteen bits, enough for `r` rounds. -/
structure Fits (r : Nat) (key : List Nat) : Prop where
  length : key.length = 6 * r + 4
  words : ∀ z ∈ key, z < 2 ^ 16

theorem Fits.finish_cases (h : Fits 0 key) :
    ∃ z1 z2 z3 z4, key = [z1, z2, z3, z4] := by
  match key, h.length with
  | [z1, z2, z3, z4], _ => exact ⟨z1, z2, z3, z4, rfl⟩

theorem Fits.round_cases (h : Fits (i + 1) key) :
    ∃ z1 z2 z3 z4 z5 z6 rest, key = z1 :: z2 :: z3 :: z4 :: z5 :: z6 :: rest ∧ Fits i rest := by
  match key, h with
  | z1 :: z2 :: z3 :: z4 :: z5 :: z6 :: rest, h =>
    refine ⟨z1, z2, z3, z4, z5, z6, rest, rfl, ?_, fun z hz => h.words z (by simp [hz])⟩
    have hlength := h.length
    simp only [List.length_cons] at hlength
    omega
  | [], h | [_], h | [_, _], h | [_, _, _], h | [_, _, _, _], h | [_, _, _, _, _], h =>
    have hlength := h.length
    simp only [List.length_cons, List.length_nil] at hlength
    omega

/-- A key that is long enough encrypts every chunk. -/
theorem Fits.exists_rounds (h : Fits i key) (a : Words) : ∃ b, rounds i a key = some b := by
  induction i generalizing key a with
  | zero =>
    obtain ⟨z1, z2, z3, z4, rfl⟩ := h.finish_cases
    exact ⟨_, rfl⟩
  | succ i ih =>
    obtain ⟨z1, z2, z3, z4, z5, z6, rest, rfl, hrest⟩ := h.round_cases
    exact ih hrest _

theorem Fits.cons_round (h : Fits n key) {t1 t2 t3 last : Nat} (ht1 : t1 < 2 ^ 16) (ht2 : t2 < 2 ^ 16)
    (ht3 : t3 < 2 ^ 16) (hlast : last < 2 ^ 16) (hz0 : z0 < 2 ^ 16) (hz1 : z1 < 2 ^ 16) :
    Fits (n + 1) (t1 :: t2 :: t3 :: last :: z0 :: z1 :: key) where
  length := by
    simp only [List.length_cons, h.length]
    omega
  words := by
    simp only [List.forall_mem_cons]
    exact ⟨ht1, ht2, ht3, hlast, hz0, hz1, h.words⟩

theorem masked_lt (v : Int) : masked v < 2 ^ 16 := by
  rw [masked]
  omega

/-- The rest of the key for decryption, when the last `n` of its rounds are there. Of a
    run that encrypts, `a` is the state in the middle of a round and `b` the result. -/
theorem decryptKey_spec (hZ : Fits i Z) (hkey : Fits n key) (hz0 : z0 < 2 ^ 16) (hz1 : z1 < 2 ^ 16) :
    ∃ key', decryptKey i (z0 :: z1 :: Z) key = some key' ∧ Fits (n + i + 1) key' ∧
      ∀ a b x, rounds i (swap (mix z0 z1 a)) Z = some b → Recoverable i (swap (mix z0 z1 a)) Z →
        rounds n (swap a) key = some x → rounds (n + i + 1) b key' = some x := by
  induction i generalizing Z key n z0 z1 with
  | zero =>
    obtain ⟨w0, w1, w2, w3, rfl⟩ := hZ.finish_cases
    obtain ⟨k0, hk0, h0⟩ := exists_inverse (hZ.words w0 (by simp))
    obtain ⟨k3, hk3, h3⟩ := exists_inverse (hZ.words w3 (by simp))
    refine ⟨k0 :: masked (-w1) :: masked (-w2) :: k3 :: z0 :: z1 :: key, ?_, ?_, ?_⟩
    · rw [decryptKey, hk0, hk3]
      rfl
    · exact hkey.cons_round h0.lt (masked_lt _) (masked_lt _) h3.lt hz0 hz1
    · intro a b x hb hkept hx
      obtain rfl : transform w0 w1 w2 w3 (mix z0 z1 a) = b := Option.some.inj hb
      rw [Recoverable, products, List.forall_mem_cons, List.forall_mem_singleton] at hkept
      rw [rounds, round_eq, transform_undo (a := mix z0 z1 a) h0 h3 hkept.1 hkept.2 w1 w2, mix_mix]
      exact hx
  | succ i ih =>
    obtain ⟨w0, w1, w2, w3, w4, w5, rest, rfl, hrest⟩ := hZ.round_cases
    obtain ⟨k0, hk0, h0⟩ := exists_inverse (hZ.words w0 (by simp))
    obtain ⟨k3, hk3, h3⟩ := exists_inverse (hZ.words w3 (by simp))
    obtain ⟨key', hkey', hfits, hspec⟩ := ih hrest
      (hkey.cons_round h0.lt (masked_lt (-w2)) (masked_lt (-w1)) h3.lt hz0 hz1) (hZ.words w4 (by simp))
      (hZ.words w5 (by simp))
    refine ⟨key', ?_, ?_, ?_⟩
    · rw [decryptKey, hk0, hk3]
      exact hkey'
    · rw [Nat.add_right_comm n 1 i] at hfits
      exact hfits
    · intro a b x hb hkept hx
      rw [rounds, round_eq] at hb
      rw [Recoverable, products, List.forall_mem_cons, List.forall_mem_cons, round_eq] at hkept
      obtain ⟨hx1, hx4, hkept⟩ := hkept
      rw [← Nat.add_assoc n i 1, Nat.add_right_comm n i 1]
      apply hspec _ b x hb hkept
      rw [rounds, round_eq, transform_undo_swap (a := swap (mix z0 z1 a)) h0 h3 hx1 hx4 w1 w2, swap_swap, mix_mix]
      exact hx

theorem Fits.set (h : Fits n key) {v : Nat} (hv : v < 2 ^ 16) (i : Nat) : Fits n (key.set i v) where
  length := by rw [List.length_set, h.length]
  words := by
    intro z hz
    obtain hmem | rfl := List.mem_or_eq_of_mem_set hz
    · exact h.words z hmem
    · exact hv

theorem Fits.foldl_set {value : List Nat → Nat → Nat} (hvalue : ∀ key i, value key i < 2 ^ 16) (h : Fits n key)
    (indices : List Nat) : Fits n (indices.foldl (fun key i => key.set i (value key i)) key) := by
  induction indices generalizing key with
  | nil => exact h
  | cons i indices ih => exact ih (h.set (hvalue key i) i)

theorem keyWord_lt (userkey : Vector Int16 8) (i : Nat) : keyWord userkey i < 2 ^ 16 := UInt16.toNat_lt _

theorem subkey_lt (key : List Nat) (i : Nat) : subkey key i < 2 ^ 16 := by
  have hmask : ∀ v, v &&& 0xffff < 2 ^ 16 := fun v => Nat.lt_of_le_of_lt Nat.and_le_right (by decide)
  simp only [subkey]
  split_ifs <;> exact hmask _

theorem generateEncryptKey_fits (userkey : Vector Int16 8) : Fits CHUNK_SIZE (generateEncryptKey userkey) := by
  have hzero : Fits CHUNK_SIZE (List.replicate KEY_LENGTH 0) :=
    ⟨List.length_replicate, fun z hz => List.eq_of_mem_replicate hz ▸ by decide⟩
  exact (hzero.foldl_set (fun _ i => keyWord_lt userkey i) _).foldl_set subkey_lt _

/-- The key for decryption undoes whatever the other key has not lost. -/
theorem generateDecryptKey_spec (userkey : Vector Int16 8) :
    ∃ key, generateDecryptKey userkey = some key ∧ Fits CHUNK_SIZE key ∧
      ∀ a b, rounds CHUNK_SIZE a (generateEncryptKey userkey) = some b →
        Recoverable CHUNK_SIZE a (generateEncryptKey userkey) → rounds CHUNK_SIZE b key = some a := by
  obtain ⟨w0, w1, w2, w3, w4, w5, rest, heq, hrest⟩ := Fits.round_cases (generateEncryptKey_fits userkey)
  have hfits := heq ▸ generateEncryptKey_fits userkey
  obtain ⟨k0, hk0, h0⟩ := exists_inverse (hfits.words w0 (by simp))
  obtain ⟨k3, hk3, h3⟩ := exists_inverse (hfits.words w3 (by simp))
  have hlast : Fits 0 [k0, masked (-w1), masked (-w2), k3] :=
    ⟨rfl, by simpa using ⟨h0.lt, masked_lt _, masked_lt _, h3.lt⟩⟩
  obtain ⟨key, hkey, hfits', hspec⟩ :=
    decryptKey_spec hrest hlast (hfits.words w4 (by simp)) (hfits.words w5 (by simp))
  refine ⟨key, ?_, hfits', ?_⟩
  · rw [generateDecryptKey, heq]
    simp only [hk0, hk3]
    exact hkey
  · intro a b hb hkept
    rw [heq, CHUNK_SIZE, rounds, round_eq] at hb
    rw [heq, CHUNK_SIZE, Recoverable, products, List.forall_mem_cons, List.forall_mem_cons, round_eq] at hkept
    obtain ⟨hx1, hx4, hkept⟩ := hkept
    apply hspec _ b a hb hkept
    rw [rounds, finish_eq, swap_swap, transform_undo h0 h3 hx1 hx4]

theorem toNat_word (l h : Int8) : (word l h).toNat = l.toUInt8.toNat + 256 * h.toUInt8.toNat := by
  have hl := l.toUInt8.toNat_lt
  have hh := h.toUInt8.toNat_lt
  have hshift : UInt16.toNat 8 % 16 = 8 := rfl
  rw [word, UInt16.toNat_or, UInt16.toNat_shiftLeft, UInt8.toNat_toUInt16, UInt8.toNat_toUInt16, hshift,
    Nat.shiftLeft_eq, Nat.mod_eq_of_lt (by omega), Nat.or_comm, ← Nat.shiftLeft_eq,
    ← Nat.shiftLeft_add_eq_or_of_lt hl, Nat.shiftLeft_eq]
  omega

theorem toNat_shiftRight (x : UInt16) : (x >>> 8).toNat = x.toNat / 256 := by
  have hshift : UInt16.toNat 8 % 16 = 8 := rfl
  rw [UInt16.toNat_shiftRight, hshift, Nat.shiftRight_eq_div_pow]

theorem low_word (l h : Int8) : low (word l h) = l := by
  have hl := l.toUInt8.toNat_lt
  have heq : (word l h).toUInt8 = l.toUInt8 := by
    rw [← UInt8.toNat_inj, UInt16.toNat_toUInt8, toNat_word]
    omega
  rw [low, heq]
  rfl

theorem high_word (l h : Int8) : high (word l h) = h := by
  have hl := l.toUInt8.toNat_lt
  have hh := h.toUInt8.toNat_lt
  have heq : (word l h >>> 8).toUInt8 = h.toUInt8 := by
    rw [← UInt8.toNat_inj, UInt16.toNat_toUInt8, toNat_shiftRight, toNat_word]
    omega
  rw [high, heq]
  rfl

theorem word_low_high (x : UInt16) : word (low x) (high x) = x := by
  have hx := x.toNat_lt
  rw [← UInt16.toNat_inj, toNat_word, low, high, UInt8.toUInt8_toInt8, UInt8.toUInt8_toInt8, UInt16.toNat_toUInt8,
    UInt16.toNat_toUInt8, toNat_shiftRight]
  omega

theorem load_store (a : Words) : load (store a) = a := by
  simp [load, store, word_low_high]

theorem store_load (plain : Chunk) : store (load plain) = plain := by
  simp only [load, store, low_word, high_word]
  ext i hi
  match i, hi with
  | 0, _ | 1, _ | 2, _ | 3, _ | 4, _ | 5, _ | 6, _ | 7, _ => rfl

/-- Every chunk is encrypted, and decrypted again unless something was lost. -/
theorem doCrypt_doCrypt (userkey : Vector Int16 8) :
    ∃ key, generateDecryptKey userkey = some key ∧ Fits CHUNK_SIZE key ∧
      ∀ plain, Recoverable CHUNK_SIZE (load plain) (generateEncryptKey userkey) →
        (doCrypt (generateEncryptKey userkey) plain).bind (doCrypt key) = some plain := by
  obtain ⟨key, hkey, hfits, hspec⟩ := generateDecryptKey_spec userkey
  refine ⟨key, hkey, hfits, fun plain hkept => ?_⟩
  obtain ⟨b, hb⟩ := (generateEncryptKey_fits userkey).exists_rounds (load plain)
  rw [doCrypt, hb, Option.map_some, Option.bind_some, doCrypt, load_store, hspec _ b hb hkept, Option.map_some,
    store_load]

end accelerators.crypt
