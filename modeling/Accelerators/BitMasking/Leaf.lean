import Mathlib.Data.Nat.Bitwise
import Mathlib.Logic.Function.Basic
import Accelerators.BitMasking.Offsets
import Accelerators.PackedBits

open counters packed_bits

namespace accelerators.bit_masking

variable {T : Type} {node node' : DataLeafNode T} {x y z offset : Int32} {zero val : T} {l : UInt8} {j k : Nat}

/-- The bit of a mask for one of its cells. -/
def cellBit (l : UInt8) (j : Nat) : Bool := l.toNat.testBit j

theorem toNat_bit (hj : j < 8) : (bit (Int32.ofNat j)).toNat = 2 ^ j := by
  have hshift : (Int32.ofNat j).toUInt32.toNat = j := by
    rw [Int32.toUInt32_ofNat', UInt32.toNat_ofNat_of_lt' (by rw [UInt32.size]; omega)]
  have hpow := Nat.pow_le_pow_right Nat.two_pos (show j ≤ 7 by omega)
  rw [bit, UInt32.toNat_shiftLeft, hshift, Nat.mod_eq_of_lt (by omega : j < 32), Nat.shiftLeft_eq,
    UInt32.toNat_one, Nat.one_mul, Nat.mod_eq_of_lt (by omega)]

theorem and_bit_ne_zero (hj : j < 8) : l.toUInt32 &&& bit (Int32.ofNat j) ≠ 0 ↔ cellBit l j := by
  rw [ne_eq, ← UInt32.toNat_inj, UInt32.toNat_and, toNat_bit hj, UInt8.toNat_toUInt32, Nat.and_two_pow, cellBit]
  cases l.toNat.testBit j <;> simp

theorem cellBit_or (hj : j < 8) (b : Nat) :
    cellBit (l.toUInt32 ||| bit (Int32.ofNat j)).toUInt8 b = (cellBit l b || b == j) := by
  rw [cellBit, cellBit, UInt32.toNat_toUInt8, UInt32.toNat_or, toNat_bit hj, UInt8.toNat_toUInt32,
    Nat.testBit_mod_two_pow, Nat.testBit_or, Nat.testBit_two_pow]
  by_cases hb : b < 8
  · simp [hb, Bool.beq_eq_decide_eq, eq_comm]
  · have hle := Nat.pow_le_pow_right Nat.two_pos (show 8 ≤ b by omega)
    have hfalse : l.toNat.testBit b = false := Nat.testBit_lt_two_pow (Nat.lt_of_lt_of_le l.toNat_lt hle)
    have hne : b ≠ j := by omega
    simp [hb, hfalse, hne]

/-- The cell at an offset is marked as active. -/
def DataLeafNode.active (node : DataLeafNode T) (k : Nat) : Bool := member cellBit 8 node.mask_bit_buffer.toList k

/-- The bits of one mask, with the counter in front of them. -/
theorem foldl_mask (l : UInt8) (offsets : List Int32) (p : Nat) (k : Nat) (hk : k ≤ 8) :
    ((List.range k).map Int32.ofNat).foldl (fun (state : List Int32 × Int32) (i : Int32) =>
      (if l.toUInt32 &&& bit i ≠ 0 then state.1 ++ [state.2] else state.1, state.2 + 1)) (offsets, Int32.ofNat p) =
    (offsets ++ ((List.range k).filter (cellBit l)).map (fun j => Int32.ofNat (p + j)), Int32.ofNat (p + k)) := by
  induction k with
  | zero => simp
  | succ k ih =>
    rw [List.range_succ, List.map_append, List.foldl_append, ih (by omega), List.filter_append, List.map_append,
      ← List.append_assoc]
    have hnext : Int32.ofNat (p + (k + 1)) = Int32.ofNat (p + k) + 1 := by
      rw [← Nat.add_assoc, Int32.ofNat_add]
      rfl
    by_cases hbit : cellBit l k
    · simp [(and_bit_ne_zero (by omega)).mpr hbit, hbit, hnext]
    · have hzero : ¬ l.toUInt32 &&& bit (Int32.ofNat k) ≠ 0 := mt (and_bit_ne_zero (by omega)).mp hbit
      simp only [ne_eq, not_not] at hzero
      simp [hzero, hbit, hnext]

theorem counter_DIM : counter 0 DIM = (List.range 8).map Int32.ofNat := by
  have hmap := map_counter_zero Int32.ofInt DIM
  simp only [Int32.ofInt_toInt, List.map_id_fun', id_eq] at hmap
  exact hmap

theorem foldl_masks (cells : List UInt8) : cells.foldl (fun state l => (counter 0 DIM).foldl
      (fun (state : List Int32 × Int32) (i : Int32) =>
        (if l.toUInt32 &&& bit i ≠ 0 then state.1 ++ [state.2] else state.1, state.2 + 1)) state) ([], 0) =
    ((positions cellBit 8 cells).map Int32.ofNat, Int32.ofNat (cells.length * 8)) := by
  induction cells using List.reverseRecOn with
  | nil => rw [positions_nil]; rfl
  | append_singleton cells l ih =>
    rw [List.foldl_append, ih, List.foldl_cons, List.foldl_nil, counter_DIM, foldl_mask l _ _ 8 (Nat.le_refl 8),
      positions_append_singleton, List.map_append, List.map_map, List.length_append, List.length_singleton,
      Nat.add_mul, Nat.one_mul]
    rfl

/-- `traverse` collects the offsets of the active cells in order. -/
theorem traverse_eq (node : DataLeafNode T) :
    node.traverse = ((List.range 512).filter node.active).map Int32.ofNat := by
  have hactive : node.active = member cellBit 8 node.mask_bit_buffer.toList := rfl
  rw [DataLeafNode.traverse, foldl_masks, positions, Vector.length_toList, hactive]

theorem toInt_eq_ofNat (h : 0 ≤ offset.toInt) : Int32.ofNat offset.toInt.toNat = offset := by
  rw [← Int32.toInt_inj, Int32.toInt_ofNat_of_lt (by have := offset.toInt_lt; omega), Int.toNat_of_nonneg h]

/-- Division by `DIM` gives the mask of a cell, and the rest its bit. -/
theorem toInt_div_DIM (h : 0 ≤ offset.toInt) : (offset / DIM).toInt = offset.toInt / 8 ∧
    (offset - offset / DIM * DIM).toInt = offset.toInt % 8 := by
  have hupper := offset.toInt_lt
  have hdim : DIM.toInt = 8 := rfl
  have hdiv : (offset / DIM).toInt = offset.toInt / 8 := by
    rw [Int32.toInt_div_of_ne_right _ _ (by decide), hdim, Int.tdiv_eq_ediv_of_nonneg h]
  have hmul : (offset / DIM * DIM).toInt = offset.toInt / 8 * 8 := by
    rw [Int32.toInt_mul, hdiv, hdim, Int.bmod_eq_of_le (by omega) (by omega)]
  refine ⟨hdiv, ?_⟩
  rw [Int32.toInt_sub, hmul, Int.bmod_eq_of_le (by omega) (by omega)]
  omega

theorem load_eq {α : Type} {n : Nat} (buffer : Vector α n) {index : Int32} (hle : 0 ≤ index.toInt)
    (hlt : index.toInt.toNat < n) : load buffer index = some buffer[index.toInt.toNat] := by
  rw [load, if_neg]
  · exact Vector.getElem?_eq_getElem hlt
  · rw [Int32.lt_iff_toInt_lt, Int32.toInt_zero]
    omega

theorem store_eq {α : Type} {n : Nat} (buffer : Vector α n) {index : Int32} (hle : 0 ≤ index.toInt)
    (hlt : index.toInt.toNat < n) (a : α) : store buffer index a = some (buffer.set index.toInt.toNat a hlt) :=
  dif_pos ⟨by rwa [Int32.le_iff_toInt_le, Int32.toInt_zero], hlt⟩

/-- An activation marks its cell and stores the value, and leaves all others alone. -/
theorem setActive_spec (node : DataLeafNode T) (val : T) (h : toOffset x y z = some offset) :
    ∃ (node' : DataLeafNode T) (hlt : offset.toInt.toNat < 512),
      node.setActive x y z val = some node' ∧
      (∀ k, node'.active k = (node.active k || k == offset.toInt.toNat)) ∧
      node'.data_buffer = node.data_buffer.set offset.toInt.toNat val hlt := by
  obtain ⟨⟨hle, hlt⟩, -⟩ := toOffset_eq_some_iff.mp h
  rw [Int32.le_iff_toInt_le, Int32.toInt_zero] at hle
  rw [Int32.lt_iff_toInt_lt, show (512 : Int32).toInt = 512 from rfl] at hlt
  obtain ⟨hindex, hshift⟩ := toInt_div_DIM hle
  have hindexlt : (offset / DIM).toInt.toNat < 64 := by omega
  have hshiftlt : (offset - offset / DIM * DIM).toInt.toNat < 8 := by omega
  have hoffset : offset.toInt.toNat < 512 := by omega
  have hindexle : 0 ≤ (offset / DIM).toInt := by omega
  have hshiftle : 0 ≤ (offset - offset / DIM * DIM).toInt := by omega
  refine ⟨⟨node.mask_bit_buffer.set _ (node.mask_bit_buffer[(offset / DIM).toInt.toNat].toUInt32 |||
    bit (offset - offset / DIM * DIM)).toUInt8 hindexlt, node.data_buffer.set _ val hoffset⟩, hoffset, ?_, ?_, rfl⟩
  · simp only [DataLeafNode.setActive, h, Option.bind_eq_bind, Option.bind_some,
      load_eq _ hindexle hindexlt, store_eq _ hindexle hindexlt, store_eq _ hle hoffset]
  · intro k
    have hposition : (offset / DIM).toInt.toNat * 8 + (offset - offset / DIM * DIM).toInt.toNat =
      offset.toInt.toNat := by omega
    rw [DataLeafNode.active, DataLeafNode.active, Vector.toList_set, ← hposition]
    apply member_set (by rwa [Vector.length_toList]) hshiftlt
    intro b
    have hor := cellBit_or (l := node.mask_bit_buffer[(offset / DIM).toInt.toNat]) hshiftlt b
    rw [toInt_eq_ofNat hshiftle] at hor
    rw [hor, Vector.getElem_toList]

/-- What a leaf is for: values of some of the cells. -/
abbrev Grid (T : Type) := Int32 × Int32 × Int32 → Option T

def Grid.activate (grid : Grid T) (c : Activation T) : Grid T :=
  Function.update grid (c.x, c.y, c.z) (some c.val)

/-- By `x`, then by `y`, then by `z`. -/
def Before (c d : Int32 × Int32 × Int32) : Prop :=
  c.1 < d.1 ∨ c.1 = d.1 ∧ (c.2.1 < d.2.1 ∨ c.2.1 = d.2.1 ∧ c.2.2 < d.2.2)

/-- The marked cells are those of the grid, and every other cell has the value `zero`. -/
structure Represents (zero : T) (node : DataLeafNode T) (grid : Grid T) : Prop where
  inRange : ∀ x y z, (grid (x, y, z)).isSome → InRange x ∧ InRange y ∧ InRange z
  active : ∀ x y z offset, toOffset x y z = some offset →
    node.active offset.toInt.toNat = (grid (x, y, z)).isSome
  value : ∀ x y z offset, toOffset x y z = some offset →
    load node.data_buffer offset = some ((grid (x, y, z)).getD zero)

/-- The offsets of a leaf as natural numbers. -/
theorem toOffset_bounds (h : toOffset x y z = some offset) : 0 ≤ offset.toInt ∧ offset.toInt < 512 := by
  obtain ⟨⟨hle, hlt⟩, -⟩ := toOffset_eq_some_iff.mp h
  rw [Int32.le_iff_toInt_le] at hle
  rw [Int32.lt_iff_toInt_lt] at hlt
  exact ⟨hle, hlt⟩

theorem load_data (node : DataLeafNode T) (h : toOffset x y z = some offset) :
    ∃ hlt : offset.toInt.toNat < 512, load node.data_buffer offset = some node.data_buffer[offset.toInt.toNat] := by
  obtain ⟨hle, hlt⟩ := toOffset_bounds h
  exact ⟨by omega, load_eq _ hle _⟩

theorem Represents.new (zero : T) : Represents zero (.new zero) fun _ => none where
  inRange := fun x y z h => by cases h
  active := by
    intro x y z offset h
    obtain ⟨hle, hlt⟩ := toOffset_bounds h
    have hcell : offset.toInt.toNat / 8 < 64 := by omega
    rw [DataLeafNode.active, DataLeafNode.new, member, Vector.toList_replicate,
      List.getElem?_replicate_of_lt hcell]
    exact Nat.zero_testBit _
  value := by
    intro x y z offset h
    obtain ⟨hlt, hload⟩ := load_data (.new zero) h
    rw [hload, DataLeafNode.new, Vector.getElem_replicate]
    rfl

/-- Different cells have different offsets. -/
theorem toOffset_inj {x' y' z' offset' : Int32} (h : toOffset x y z = some offset)
    (h' : toOffset x' y' z' = some offset') :
    offset'.toInt.toNat = offset.toInt.toNat ↔ (x', y', z') = (x, y, z) := by
  have hbounds := toOffset_bounds h
  have hbounds' := toOffset_bounds h'
  constructor
  · intro heq
    have hoffset : offset' = offset := by
      rw [← Int32.toInt_inj]
      omega
    rw [← (toOffset_eq_some_iff.mp h).2, ← (toOffset_eq_some_iff.mp h').2, hoffset]
  · intro heq
    obtain ⟨rfl, rfl, rfl⟩ : x' = x ∧ y' = y ∧ z' = z := by simpa using heq
    rw [Option.some.inj (h'.symm.trans h)]

/-- `setActive` does to the leaf what `activate` does to the grid. -/
theorem Represents.setActive {grid : Grid T} (h : Represents zero node grid) (c : Activation T)
    (hc : toOffset c.x c.y c.z = some offset) :
    ∃ node', node.setActive c.x c.y c.z c.val = some node' ∧ Represents zero node' (grid.activate c) := by
  obtain ⟨node', hlt, hset, hactive, hdata⟩ := setActive_spec node c.val hc
  refine ⟨node', hset, ?_, ?_, ?_⟩
  · intro x y z hsome
    by_cases hcell : (x, y, z) = (c.x, c.y, c.z)
    · obtain ⟨rfl, rfl, rfl⟩ : x = c.x ∧ y = c.y ∧ z = c.z := by simpa using hcell
      exact toOffset_isSome.mp (Option.isSome_of_eq_some hc)
    · rw [Grid.activate, Function.update_of_ne hcell] at hsome
      exact h.inRange x y z hsome
  · intro x y z offset' h'
    have hsame := toOffset_inj hc h'
    rw [hactive, h.active x y z offset' h']
    by_cases hcell : (x, y, z) = (c.x, c.y, c.z)
    · rw [hsame.mpr hcell, Grid.activate, hcell, Function.update_self, beq_self_eq_true, Bool.or_true]
      rfl
    · rw [Grid.activate, Function.update_of_ne hcell, beq_eq_false_iff_ne.mpr (mt hsame.mp hcell), Bool.or_false]
  · intro x y z offset' h'
    have hsame := toOffset_inj hc h'
    obtain ⟨hlt', hload⟩ := load_data node' h'
    obtain ⟨hold, hloadOld⟩ := load_data node h'
    rw [hload]
    by_cases hcell : (x, y, z) = (c.x, c.y, c.z)
    · simp [hdata, hsame.mpr hcell, Grid.activate, hcell]
    · have hvalue := h.value x y z offset' h'
      rw [hloadOld] at hvalue
      simp only [hdata]
      rw [Vector.getElem_set_ne _ _ (Ne.symm (mt hsame.mp hcell)), hvalue, Grid.activate,
        Function.update_of_ne hcell]

theorem Represents.setAll {grid : Grid T} (h : Represents zero node grid) (calls : List (Activation T))
    (hcalls : ∀ c ∈ calls, InRange c.x ∧ InRange c.y ∧ InRange c.z) :
    ∃ node', setAll calls node = some node' ∧ Represents zero node' (calls.foldl Grid.activate grid) := by
  induction calls generalizing node grid with
  | nil => exact ⟨node, rfl, h⟩
  | cons c calls ih =>
    obtain ⟨offset, hoffset⟩ := Option.isSome_iff_exists.mp (toOffset_isSome.mpr (hcalls c List.mem_cons_self))
    obtain ⟨node₁, hset, h₁⟩ := h.setActive c hoffset
    obtain ⟨node', hall, h'⟩ := ih h₁ fun d hd => hcalls d (List.mem_cons_of_mem _ hd)
    refine ⟨node', ?_, h'⟩
    rw [bit_masking.setAll, List.foldlM_cons, hset]
    exact hall

/-- A failed assertion ends the program. -/
theorem setAll_isSome (calls : List (Activation T)) (node : DataLeafNode T)
    (h : (setAll calls node).isSome) : ∀ c ∈ calls, InRange c.x ∧ InRange c.y ∧ InRange c.z := by
  induction calls generalizing node with
  | nil => exact fun c hc => by cases hc
  | cons c calls ih =>
    rw [setAll, List.foldlM_cons] at h
    obtain ⟨node', hset⟩ : ∃ node', node.setActive c.x c.y c.z c.val = some node' := by
      cases hset : node.setActive c.x c.y c.z c.val with
      | none => rw [hset] at h; cases h
      | some node' => exact ⟨node', rfl⟩
    rw [hset] at h
    rintro d (_ | ⟨_, hd⟩)
    · rw [← toOffset_isSome]
      cases hoffset : toOffset c.x c.y c.z with
      | none => rw [DataLeafNode.setActive, hoffset] at hset; cases hset
      | some offset => rfl
    · exact ih node' h d hd

/-- The cells of a grid that calls have activated. -/
theorem isSome_foldl_activate (calls : List (Activation T)) (grid : Grid T) (cell : Int32 × Int32 × Int32) :
    (calls.foldl Grid.activate grid cell).isSome ↔
      (grid cell).isSome ∨ ∃ c ∈ calls, (c.x, c.y, c.z) = cell := by
  induction calls generalizing grid with
  | nil => simp
  | cons c calls ih =>
    rw [List.foldl_cons, ih, Grid.activate]
    by_cases hcell : cell = (c.x, c.y, c.z)
    · simp [hcell]
    · simp [Function.update_of_ne hcell, Ne.symm hcell]

/-- The digits of a smaller offset come first. -/
theorem before_fromOffset {m k : Nat} (hmk : m < k) (hk : k < 512) :
    Before (fromOffset (Int32.ofNat m)) (fromOffset (Int32.ofNat k)) := by
  have hm := Int32.toInt_ofNat_of_lt (n := m) (by omega)
  have hk' := Int32.toInt_ofNat_of_lt (n := k) (by omega)
  obtain ⟨hx, hy, hz⟩ := toInt_fromOffset (Int32.ofNat m) (by omega)
  obtain ⟨hx', hy', hz'⟩ := toInt_fromOffset (Int32.ofNat k) (by omega)
  simp only [Before, Int32.lt_iff_toInt_lt, ← Int32.toInt_inj, hx, hy, hz, hx', hy', hz', hm, hk']
  omega

theorem traverse_pairwise (node : DataLeafNode T) : (node.traverse.map fromOffset).Pairwise Before := by
  rw [traverse_eq, List.map_map, List.pairwise_map]
  have hlt : ((List.range 512).filter node.active).Pairwise (· < ·) := List.pairwise_lt_range.filter _
  refine hlt.imp_of_mem fun {m k} _ hk hmk => ?_
  rw [List.mem_filter, List.mem_range] at hk
  exact before_fromOffset hmk hk.1

theorem Represents.mem_traverse {grid : Grid T} (h : Represents zero node grid) (cell : Int32 × Int32 × Int32) :
    cell ∈ node.traverse.map fromOffset ↔ (grid cell).isSome := by
  obtain ⟨x, y, z⟩ := cell
  rw [traverse_eq, List.map_map, List.mem_map]
  constructor
  · rintro ⟨k, hk, hcell⟩
    rw [List.mem_filter, List.mem_range] at hk
    have hint := Int32.toInt_ofNat_of_lt (n := k) (by omega)
    have hoffset : toOffset x y z = some (Int32.ofNat k) := by
      rw [toOffset_eq_some_iff, Int32.le_iff_toInt_le, Int32.lt_iff_toInt_lt, hint]
      exact ⟨⟨by simp, by change (k : Int) < 512; omega⟩, hcell⟩
    have hactive := h.active x y z _ hoffset
    rw [hint, Int.toNat_natCast] at hactive
    rw [← hactive, hk.2]
  · intro hsome
    obtain ⟨offset, hoffset⟩ := Option.isSome_iff_exists.mp (toOffset_isSome.mpr (h.inRange x y z hsome))
    obtain ⟨hle, hlt⟩ := toOffset_bounds hoffset
    refine ⟨offset.toInt.toNat, ?_, ?_⟩
    · rw [List.mem_filter, List.mem_range, h.active x y z offset hoffset]
      exact ⟨by omega, hsome⟩
    · rw [Function.comp_apply, toInt_eq_ofNat hle, (toOffset_eq_some_iff.mp hoffset).2]

/-- Calls of `setActive` on a new leaf pass the assertions exactly when every
    coordinate is in range. Then `traverse` goes through the cells that were
    activated, each once and in order, and a cell has the value that was stored last. -/
theorem leaf_of_calls (zero : T) (calls : List (Activation T)) :
    ((setAll calls (.new zero)).isSome ↔ ∀ c ∈ calls, InRange c.x ∧ InRange c.y ∧ InRange c.z) ∧
    ∀ node ∈ setAll calls (.new zero), (node.traverse.map fromOffset).Pairwise Before ∧
      (∀ cell, cell ∈ node.traverse.map fromOffset ↔ ∃ c ∈ calls, (c.x, c.y, c.z) = cell) ∧
      ∀ x y z, ∀ offset ∈ toOffset x y z, load node.data_buffer offset =
        some ((calls.foldl Grid.activate (fun _ => none) (x, y, z)).getD zero) := by
  refine ⟨⟨setAll_isSome calls _, fun hcalls => ?_⟩, ?_⟩
  · obtain ⟨node, hnode, -⟩ := (Represents.new zero).setAll calls hcalls
    exact Option.isSome_of_eq_some hnode
  · intro node hnode
    obtain ⟨node', hnode', h⟩ := (Represents.new zero).setAll calls
      (setAll_isSome calls _ (Option.isSome_of_eq_some hnode))
    obtain rfl := Option.some.inj (hnode'.symm.trans hnode)
    refine ⟨traverse_pairwise node', fun cell => ?_, fun x y z offset hoffset => h.value x y z offset hoffset⟩
    rw [h.mem_traverse, isSome_foldl_activate]
    simp

end accelerators.bit_masking
