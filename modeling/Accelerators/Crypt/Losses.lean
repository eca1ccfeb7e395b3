import Mathlib.Data.Set.Card
import Mathlib.Data.Fintype.Prod
import Accelerators.Crypt.RoundTrip

namespace accelerators.crypt

/-- What goes wrong now or after a step, when the step is injective where nothing goes
    wrong now. -/
theorem ncard_now_or_later_le {α β : Type} [Finite α] [Finite β] {now : Set α} {f : α → β} (later : Set β)
    (hf : Set.InjOn f {a | a ∉ now}) : {a | a ∈ now ∨ f a ∈ later}.ncard ≤ now.ncard + later.ncard := by
  have hsubset : {a | a ∈ now ∨ f a ∈ later} ⊆ now ∪ {a | a ∉ now ∧ f a ∈ later} := by
    rintro a (hnow | hlater)
    · exact .inl hnow
    · by_cases hnow : a ∈ now
      · exact .inl hnow
      · exact .inr ⟨hnow, hlater⟩
  have hlater : {a | a ∉ now ∧ f a ∈ later}.ncard ≤ later.ncard :=
    Set.ncard_le_ncard_of_injOn f (fun a ha => ha.2) (hf.mono fun a ha => ha.1) (Set.toFinite _)
  calc {a | a ∈ now ∨ f a ∈ later}.ncard ≤ (now ∪ {a | a ∉ now ∧ f a ∈ later}).ncard :=
        Set.ncard_le_ncard hsubset (Set.toFinite _)
    _ ≤ now.ncard + {a | a ∉ now ∧ f a ∈ later}.ncard := Set.ncard_union_le _ _
    _ ≤ now.ncard + later.ncard := Nat.add_le_add_left hlater _

variable {w r : Nat} {key : List Nat} {x y : UInt16}

/-- A word of the key other than zero loses one value at most. -/
theorem lost_unique (hlt : w < 2 ^ 16) (hw : w ≠ 0) (hx : ¬ Kept x w) (hy : ¬ Kept y w) : x = y := by
  obtain ⟨k, -, hinverse⟩ := exists_inverse hlt
  have hmasked : ∀ x : UInt16, ¬ Kept x w → x.toNat * w % 0x10001 = 0x10000 := by
    intro x hx
    by_contra hne
    exact hx ⟨hne, fun hzero => absurd hzero hw⟩
  obtain ⟨rfl, -⟩ | hinverse := hinverse.inverse
  · exact absurd rfl hw
  · have hback := product_inverse hinverse
    rw [← UInt16.toNat_inj, ← hback x, ← hback y, hmasked x hx, hmasked y hy]

def wordEquiv : UInt16 ≃ Fin (2 ^ 16) where
  toFun := UInt16.toFin
  invFun := UInt16.ofFin
  left_inv := UInt16.ofFin_toFin
  right_inv := UInt16.toFin_ofFin

instance finite_word : Finite UInt16 := Finite.of_equiv _ wordEquiv.symm

theorem card_words : Nat.card (UInt16 × UInt16 × UInt16) = 2 ^ 48 := by
  rw [Nat.card_prod, Nat.card_prod, Nat.card_congr wordEquiv, Nat.card_fin]
  norm_num

def wordsEquiv : Words ≃ UInt16 × UInt16 × UInt16 × UInt16 where
  toFun a := (a.x1, a.x2, a.x3, a.x4)
  invFun p := ⟨p.1, p.2.1, p.2.2.1, p.2.2.2⟩
  left_inv _ := rfl
  right_inv _ := rfl

instance finite_words : Finite Words := Finite.of_equiv _ wordsEquiv.symm

/-- The chunks in which one word is lost are told apart by their other words. -/
theorem ncard_lost_le (hlt : w < 2 ^ 16) (hw : w ≠ 0) (f : Words → UInt16)
    (others : Words → UInt16 × UInt16 × UInt16) (hinj : ∀ a b, f a = f b → others a = others b → a = b) :
    {a | ¬ Kept (f a) w}.ncard ≤ 2 ^ 48 := by
  rw [← card_words, ← Set.ncard_univ]
  apply Set.ncard_le_ncard_of_injOn others (fun a _ => Set.mem_univ _) _ (Set.toFinite _)
  intro a ha b hb heq
  exact hinj a b (lost_unique hlt hw ha hb) heq

/-- No word of the key that has to be undone by its inverse is zero. -/
def Invertible (key : List Nat) : Prop := ∀ i < key.length, i % 3 = 0 → key.getD i 0 ≠ 0

instance (key : List Nat) : Decidable (Invertible key) :=
  inferInstanceAs (Decidable (∀ i < key.length, i % 3 = 0 → key.getD i 0 ≠ 0))

theorem ncard_lost_transform_le {w1 w4 : Nat} (hlt1 : w1 < 2 ^ 16) (hw1 : w1 ≠ 0) (hlt4 : w4 < 2 ^ 16)
    (hw4 : w4 ≠ 0) : {a : Words | ¬ Kept a.x1 w1 ∨ ¬ Kept a.x4 w4}.ncard ≤ 2 * 2 ^ 48 := by
  have h1 := ncard_lost_le hlt1 hw1 (fun a => a.x1) (fun a => (a.x2, a.x3, a.x4)) (by
    rintro ⟨⟩ ⟨⟩ hx1 hothers
    simp_all)
  have h4 := ncard_lost_le hlt4 hw4 (fun a => a.x4) (fun a => (a.x1, a.x2, a.x3)) (by
    rintro ⟨⟩ ⟨⟩ hx4 hothers
    simp_all)
  have hunion := Set.ncard_union_le {a : Words | ¬ Kept a.x1 w1} {a : Words | ¬ Kept a.x4 w4}
  rw [← Set.ofPred_or] at hunion
  omega

/-- A round tells chunks apart in which it loses nothing. -/
theorem round_injOn {w1 w4 : Nat} (hlt1 : w1 < 2 ^ 16) (hlt4 : w4 < 2 ^ 16) (w2 w3 w5 w6 : Nat) :
    Set.InjOn (round w1 w2 w3 w4 w5 w6) {a | a ∉ {a : Words | ¬ Kept a.x1 w1 ∨ ¬ Kept a.x4 w4}} := by
  obtain ⟨k1, -, h1⟩ := exists_inverse hlt1
  obtain ⟨k4, -, h4⟩ := exists_inverse hlt4
  intro a ha b hb heq
  simp only [Set.mem_ofPred_eq, not_or, not_not] at ha hb
  rw [round_eq, round_eq] at heq
  have hswap := congrArg swap heq
  rw [swap_swap, swap_swap] at hswap
  have hmix := congrArg (mix w5 w6) hswap
  rw [mix_mix, mix_mix] at hmix
  rw [← transform_undo h1 h4 ha.1 ha.2 w2 w3, hmix, transform_undo h1 h4 hb.1 hb.2]

theorem ncard_not_recoverable_le (hfits : Fits r key) (hinvertible : Invertible key) :
    {a | ¬ Recoverable r a key}.ncard ≤ 2 * (r + 1) * 2 ^ 48 := by
  induction r generalizing key with
  | zero =>
    obtain ⟨w1, w2, w3, w4, rfl⟩ := hfits.finish_cases
    have hset : {a | ¬ Recoverable 0 a [w1, w2, w3, w4]} = {a : Words | ¬ Kept a.x1 w1 ∨ ¬ Kept a.x4 w4} := by
      ext a
      rw [Set.mem_ofPred_eq, Recoverable, products, List.forall_mem_cons, List.forall_mem_singleton, not_and_or]
      rfl
    rw [hset]
    exact ncard_lost_transform_le (hfits.words w1 (by simp)) (hinvertible 0 (by simp) rfl)
      (hfits.words w4 (by simp)) (hinvertible 3 (by simp) rfl)
  | succ r ih =>
    obtain ⟨w1, w2, w3, w4, w5, w6, rest, rfl, hrest⟩ := hfits.round_cases
    have hlt1 := hfits.words w1 (by simp)
    have hlt4 := hfits.words w4 (by simp)
    have hset : {a | ¬ Recoverable (r + 1) a (w1 :: w2 :: w3 :: w4 :: w5 :: w6 :: rest)} =
        {a | a ∈ {a : Words | ¬ Kept a.x1 w1 ∨ ¬ Kept a.x4 w4} ∨
          round w1 w2 w3 w4 w5 w6 a ∈ {a | ¬ Recoverable r a rest}} := by
      ext a
      rw [Set.mem_ofPred_eq, Recoverable, products, List.forall_mem_cons, List.forall_mem_cons, not_and_or, not_and_or,
        ← or_assoc]
      rfl
    have hinvertible' : Invertible rest := by
      intro i hi hmod
      have hne := hinvertible (i + 6) (by simp only [List.length_cons]; omega) (by omega)
      exact hne
    have hnow := ncard_lost_transform_le hlt1 (hinvertible 0 (by simp) rfl) hlt4 (hinvertible 3 (by simp) rfl)
    have hlater := ih hrest hinvertible'
    have hsum := ncard_now_or_later_le {a | ¬ Recoverable r a rest} (round_injOn hlt1 hlt4 w2 w3 w5 w6)
    rw [hset]
    omega

/-- Unless a word of the key that has to be inverted is zero, all but 18 * 2 ^ 48 of the
    2 ^ 64 chunks are decrypted to what was encrypted. -/
theorem ncard_not_decrypted_le (userkey : Vector Int16 8) (hinvertible : Invertible (generateEncryptKey userkey)) :
    ∃ key, generateDecryptKey userkey = some key ∧
      {plain | (doCrypt (generateEncryptKey userkey) plain).bind (doCrypt key) ≠ some plain}.encard ≤
        18 * 2 ^ 48 := by
  obtain ⟨key, hkey, -, hspec⟩ := doCrypt_doCrypt userkey
  refine ⟨key, hkey, ?_⟩
  have hinj : Function.Injective load := Function.LeftInverse.injective store_load
  have hmaps : Set.MapsTo load
      {plain | (doCrypt (generateEncryptKey userkey) plain).bind (doCrypt key) ≠ some plain}
      {a | ¬ Recoverable CHUNK_SIZE a (generateEncryptKey userkey)} := fun plain => mt (hspec plain)
  have hle := ncard_not_recoverable_le (generateEncryptKey_fits userkey) hinvertible
  apply (Set.encard_le_encard_of_injOn hmaps hinj.injOn).trans
  rw [← (Set.toFinite {a | ¬ Recoverable CHUNK_SIZE a (generateEncryptKey userkey)}).cast_ncard_eq]
  exact_mod_cast hle

theorem ncard_not_decrypted_le_ones : ∃ key, generateDecryptKey (Vector.replicate 8 1) = some key ∧
    {plain | (doCrypt (generateEncryptKey (Vector.replicate 8 1)) plain).bind (doCrypt key) ≠ some plain}.encard ≤
      18 * 2 ^ 48 := by
  exact ncard_not_decrypted_le (Vector.replicate 8 1) (by decide +kernel)

end accelerators.crypt
