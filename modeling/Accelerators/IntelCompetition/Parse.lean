import Accelerators.Buffer
import Accelerators.IntelCompetition

open accelerators.kaleidoscope (chr)
open buffer

namespace accelerators.intel_competition

/-- What stands between the spaces of a line. -/
def fields (s : CString) : List (List UInt8) := s.bytes.splitOn (chr ' ')

/-- In the loop: the part of a field that was read, and the results of the fields
    before it. -/
structure Parsing.Invariant (p : Parsing) (read : List UInt8) (results : List Int32) : Prop where
  pos_wr : p.pos_wr = read.length
  temp : ∃ old, Filled old read p.temp
  pos_rez : p.pos_rez = results.length
  rez : Filled (Vector.replicate 6 none) (results.map some) p.rez

section
variable {p : Parsing} {done : List UInt8} {results : List Int32} {c : UInt8}

theorem store_of_lt {α : Type} {n index : Nat} {array : Vector α n} (h : index < n) (x : α) :
    store array index x = .ok (array.set index x h) := dif_pos h

theorem store_of_le {α : Type} {n index : Nat} {array : Vector α n} (h : n ≤ index) (x : α) :
    store array index x = .error .bounds := dif_neg (Nat.not_lt_of_le h)

theorem text_of_filled {old temp : Vector UInt8 16} (h : Filled old (done ++ [0]) temp) (hzero : 0 ∉ done) :
    text temp = done := by
  rw [text, h, List.append_assoc, List.takeWhile_append_of_pos]
  · simp
  · intro c hc
    have hne : c ≠ 0 := fun heq => hzero (heq ▸ hc)
    simpa using hne

theorem Parsing.body_byte (hc : isseparator c = false) : p.body c =
    (store p.temp p.pos_wr c).bind fun temp => .ok { p with temp, pos_wr := p.pos_wr + 1 } := by
  rw [body, hc]
  rfl

theorem Parsing.body_separator (hc : isseparator c = true) : p.body c =
    (store p.temp p.pos_wr 0).bind fun temp => (store p.rez p.pos_rez (some (atoi (text temp)))).bind fun rez =>
      .ok { temp, pos_wr := 0, rez, pos_rez := p.pos_rez + 1 } := by
  rw [body, hc]
  rfl

theorem Parsing.Invariant.byte (h : p.Invariant done results) (hc : isseparator c = false) (hlt : done.length < 16) :
    ∃ p', p.body c = .ok p' ∧ p'.Invariant (done ++ [c]) results := by
  obtain ⟨hpos, ⟨old, htemp⟩, hposrez, hrez⟩ := h
  have hwr : p.pos_wr < 16 := hpos ▸ hlt
  have hset := htemp.set hlt c
  rw [body_byte hc, store_of_lt hwr]
  refine ⟨_, rfl, ?_, ⟨old, ?_⟩, hposrez, hrez⟩
  · simp [hpos]
  · simpa only [hpos] using hset

theorem Parsing.Invariant.separator (h : p.Invariant done results) (hc : isseparator c = true) (hzero : 0 ∉ done)
    (hlt : done.length < 16) (hroom : results.length < 6) :
    ∃ p', p.body c = .ok p' ∧ p'.Invariant [] (results ++ [atoi done]) := by
  obtain ⟨hpos, ⟨old, htemp⟩, hposrez, hrez⟩ := h
  have hwr : p.pos_wr < 16 := hpos ▸ hlt
  have hrezwr : p.pos_rez < 6 := hposrez ▸ hroom
  have htext : text (p.temp.set p.pos_wr 0 hwr) = done := by
    have hstored : Filled old (done ++ [0]) (p.temp.set p.pos_wr 0 hwr) := by
      simpa only [hpos] using htemp.set hlt 0
    exact text_of_filled hstored hzero
  have hset := hrez.set (by rwa [List.length_map]) (some (atoi done))
  rw [body_separator hc, store_of_lt hwr]
  simp only [Except.bind, store_of_lt hrezwr, htext]
  refine ⟨_, rfl, rfl, ⟨_, .nil⟩, ?_, ?_⟩
  · simp [hposrez]
  · simpa only [List.length_map, hposrez, List.map_append, List.map_singleton] using hset

theorem Parsing.body_of_le (h : 16 ≤ p.pos_wr) (c : UInt8) : p.body c = .error .bounds := by
  cases hc : isseparator c with
  | false => rw [body_byte hc, store_of_le h, Except.bind]
  | true => rw [body_separator hc, store_of_le h, Except.bind]

theorem Parsing.body_separator_of_le (hc : isseparator c = true) (h : 6 ≤ p.pos_rez) :
    p.body c = .error .bounds := by
  by_cases hwr : p.pos_wr < 16
  · rw [body_separator hc, store_of_lt hwr]
    simp only [Except.bind, store_of_le h]
  · exact body_of_le (Nat.le_of_not_lt hwr) c

/-- A field is read byte by byte, then its separator ends it. -/
theorem Parsing.Invariant.field {field : List UInt8} (h : p.Invariant done results)
    (hfield : ∀ c ∈ field, isseparator c = false) (hc : isseparator c = true) (hzero : 0 ∉ done)
    (hlt : done.length + field.length < 16) (hroom : results.length < 6) :
    ∃ p', (field ++ [c]).foldlM body p = .ok p' ∧ p'.Invariant [] (results ++ [atoi (done ++ field)]) := by
  induction field generalizing p done with
  | nil =>
    obtain ⟨p', hbody, hinv⟩ := h.separator hc hzero hlt hroom
    exact ⟨p', by rw [List.nil_append, List.foldlM_cons, hbody]; rfl, by rwa [List.append_nil]⟩
  | cons d field ih =>
    obtain ⟨hd, hfield⟩ := List.forall_mem_cons.mp hfield
    rw [List.length_cons] at hlt
    obtain ⟨p', hbody, hinv⟩ := h.byte hd (by omega)
    have hzero' : 0 ∉ done ++ [d] := by
      intro hmem
      obtain hmem | hmem := List.mem_append.mp hmem
      · exact hzero hmem
      · rw [← List.mem_singleton.mp hmem] at hd
        exact absurd hd (by decide)
    obtain ⟨p'', hrun, hinv'⟩ := ih hinv hfield hzero' (by rw [List.length_append, List.length_singleton]; omega)
    refine ⟨p'', ?_, ?_⟩
    · rw [List.cons_append, List.foldlM_cons, hbody]
      exact hrun
    · rwa [List.append_assoc, List.singleton_append] at hinv'

theorem Parsing.Invariant.field_error {field : List UInt8} (h : p.Invariant done results)
    (hfield : ∀ c ∈ field, isseparator c = false) (hc : isseparator c = true)
    (hbad : 16 ≤ done.length + field.length ∨ 6 ≤ results.length) :
    (field ++ [c]).foldlM body p = .error .bounds := by
  induction field generalizing p done with
  | nil =>
    rw [List.nil_append, List.foldlM_cons]
    obtain hlong | hfull := hbad
    · rw [body_of_le (h.pos_wr ▸ hlong)]
      rfl
    · rw [body_separator_of_le hc (h.pos_rez ▸ hfull)]
      rfl
  | cons d field ih =>
    obtain ⟨hd, hfield⟩ := List.forall_mem_cons.mp hfield
    rw [List.cons_append, List.foldlM_cons]
    by_cases hlt : done.length < 16
    · obtain ⟨p', hbody, hinv⟩ := h.byte hd hlt
      rw [hbody]
      apply ih hinv hfield
      rw [List.length_append, List.length_singleton]
      rw [List.length_cons] at hbad
      omega
    · rw [body_of_le (h.pos_wr ▸ Nat.le_of_not_lt hlt)]
      rfl

end

section
variable {p : Parsing} {results : List Int32} {fs : List (List UInt8)}

theorem line_cons {field : List UInt8} (hne : fs ≠ []) :
    [chr ' '].intercalate (field :: fs) ++ [0] = (field ++ [chr ' ']) ++ ([chr ' '].intercalate fs ++ [0]) := by
  rw [List.intercalate_cons_of_ne_nil hne]
  simp only [List.append_assoc]

theorem Parsing.Invariant.line (h : p.Invariant [] results) (hne : fs ≠ [])
    (hfields : ∀ f ∈ fs, ∀ c ∈ f, isseparator c = false) (hlengths : ∀ f ∈ fs, f.length ≤ 15)
    (hroom : results.length + fs.length ≤ 6) :
    ∃ p', ([chr ' '].intercalate fs ++ [0]).foldlM body p = .ok p' ∧ p'.Invariant [] (results ++ fs.map atoi) := by
  induction fs generalizing p results with
  | nil => exact (hne rfl).elim
  | cons f fs ih =>
    obtain ⟨hf, hfields⟩ := List.forall_mem_cons.mp hfields
    obtain ⟨hlength, hlengths⟩ := List.forall_mem_cons.mp hlengths
    rw [List.length_cons] at hroom
    have hlt : ([] : List UInt8).length + f.length < 16 := by
      rw [List.length_nil]
      omega
    by_cases hlast : fs = []
    · subst hlast
      rw [List.intercalate_singleton]
      exact h.field hf rfl List.not_mem_nil hlt (by omega)
    · obtain ⟨p', hrun, hinv⟩ := h.field (c := chr ' ') hf rfl List.not_mem_nil hlt (by omega)
      obtain ⟨p'', hrest, hinv'⟩ := ih hinv hlast hfields hlengths
        (by rw [List.length_append, List.length_singleton]; omega)
      refine ⟨p'', ?_, ?_⟩
      · rw [line_cons hlast, List.foldlM_append, hrun]
        exact hrest
      · rwa [List.append_assoc] at hinv'

theorem Parsing.Invariant.line_error (h : p.Invariant [] results) (hne : fs ≠ [])
    (hfields : ∀ f ∈ fs, ∀ c ∈ f, isseparator c = false)
    (hbad : ¬ ((∀ f ∈ fs, f.length ≤ 15) ∧ results.length + fs.length ≤ 6)) :
    ([chr ' '].intercalate fs ++ [0]).foldlM body p = .error .bounds := by
  induction fs generalizing p results with
  | nil => exact (hne rfl).elim
  | cons f fs ih =>
    obtain ⟨hf, hfields⟩ := List.forall_mem_cons.mp hfields
    rw [List.forall_mem_cons, List.length_cons] at hbad
    by_cases hlast : fs = []
    · subst hlast
      rw [List.intercalate_singleton]
      apply h.field_error hf rfl
      by_contra hnot
      apply hbad
      simp at hnot ⊢
      omega
    · rw [line_cons hlast, List.foldlM_append]
      by_cases hfirst : 16 ≤ ([] : List UInt8).length + f.length ∨ 6 ≤ results.length
      · rw [h.field_error hf rfl hfirst]
        rfl
      · have hlt : ([] : List UInt8).length + f.length < 16 := by omega
        obtain ⟨p', hrun, hinv⟩ := h.field (c := chr ' ') hf rfl List.not_mem_nil hlt (by omega)
        rw [hrun]
        apply ih hinv hlast hfields
        rintro ⟨hlengths, hroom⟩
        rw [List.length_append, List.length_singleton] at hroom
        rw [List.length_nil] at hlt
        exact hbad ⟨⟨by omega, hlengths⟩, by omega⟩

end

theorem mem_splitOn {α : Type} [BEq α] [LawfulBEq α] {xs field : List α} {x c : α}
    (hfield : field ∈ xs.splitOn x)
    (hc : c ∈ field) : c ∈ xs ∧ c ≠ x := by
  induction xs generalizing field with
  | nil =>
    rw [List.splitOn_nil, List.mem_singleton] at hfield
    rw [hfield] at hc
    exact (List.not_mem_nil hc).elim
  | cons d xs ih =>
    rw [List.splitOn_cons_eq_if_modifyHead] at hfield
    split_ifs at hfield with hd
    · obtain rfl | hfield := List.mem_cons.mp hfield
      · exact (List.not_mem_nil hc).elim
      · exact (ih hfield hc).imp_left (List.mem_cons_of_mem d)
    · obtain ⟨first, rest, hsplit⟩ := List.exists_cons_of_ne_nil (List.splitOn_ne_nil x xs)
      rw [hsplit] at hfield ih
      obtain rfl | hfield := List.mem_cons.mp hfield
      · obtain rfl | hc := List.mem_cons.mp hc
        · exact ⟨List.mem_cons_self .., by simpa using hd⟩
        · exact (ih (List.mem_cons_self ..) hc).imp_left (List.mem_cons_of_mem d)
      · exact (ih (List.mem_cons_of_mem _ hfield) hc).imp_left (List.mem_cons_of_mem d)

section
variable {s : CString}

theorem isseparator_of_mem_fields : ∀ f ∈ fields s, ∀ c ∈ f, isseparator c = false := by
  intro f hf c hc
  obtain ⟨hmem, hspace⟩ := mem_splitOn hf hc
  have hzero : c ≠ 0 := fun heq => s.terminated (heq ▸ hmem)
  simp [isseparator, hspace, hzero]

theorem intercalate_fields : [chr ' '].intercalate (fields s) = s.bytes := List.intercalate_splitOn _

theorem invariant_start (temp : Vector UInt8 16) :
    Parsing.Invariant { pos_wr := 0, temp, rez := Vector.replicate 6 none, pos_rez := 0 } [] [] :=
  ⟨rfl, ⟨temp, .nil⟩, rfl, .nil⟩

/-- Six fields, and room in the buffer for each with a terminating byte. -/
def Fits (s : CString) : Prop := (fields s).length = 6 ∧ ∀ f ∈ fields s, f.length ≤ 15

theorem parse_of_fields (temp : Vector UInt8 16) {M N seed0 a b m : List UInt8}
    (hfields : fields s = [M, N, seed0, a, b, m]) (hlengths : ∀ f ∈ fields s, f.length ≤ 15) :
    parse temp s = .ok ⟨atoi M, atoi N, atoi seed0, atoi a, atoi b, atoi m⟩ := by
  have hne : fields s ≠ [] := by simp [hfields]
  obtain ⟨p, hrun, hinv⟩ := (invariant_start temp).line hne isseparator_of_mem_fields hlengths (by simp [hfields])
  rw [intercalate_fields] at hrun
  have hrez : p.rez.toList = ([M, N, seed0, a, b, m].map atoi).map some := by
    rw [← hfields]
    exact hinv.rez.eq (by simp [hfields])
  have hall : p.rez =
      #v[some (atoi M), some (atoi N), some (atoi seed0), some (atoi a), some (atoi b), some (atoi m)] :=
    Vector.toList_inj.mp hrez
  have hassign : parse temp s = assign p.rez := by
    rw [parse, hrun]
    rfl
  rw [hassign, hall]
  rfl

theorem ok_of_bind {α β : Type} {x : Except Fault α} {f : α → Except Fault β} {r : β} (h : x >>= f = .ok r) :
    ∃ a, x = .ok a ∧ f a = .ok r := by
  cases x with
  | error fault => cases h
  | ok a => exact ⟨a, rfl, h⟩

theorem last_of_assign {rez : Vector (Option Int32) 6} {parameters : Parameters} (h : assign rez = .ok parameters) :
    rez[(5 : Fin 6)] ≠ none := by
  obtain ⟨M, -, h⟩ := ok_of_bind h
  obtain ⟨N, -, h⟩ := ok_of_bind h
  obtain ⟨seed0, -, h⟩ := ok_of_bind h
  obtain ⟨a, -, h⟩ := ok_of_bind h
  obtain ⟨b, -, h⟩ := ok_of_bind h
  obtain ⟨m, hm, -⟩ := ok_of_bind h
  intro hnone
  rw [read, hnone] at hm
  cases hm

/-- No store leaves its array and no result is missing, exactly for a line of six
    fields that each fit into the buffer with a terminating byte. -/
theorem parse_ok_iff (temp : Vector UInt8 16) : (∃ parameters, parse temp s = .ok parameters) ↔ Fits s := by
  have hne : fields s ≠ [] := List.splitOn_ne_nil _ _
  constructor
  · rintro ⟨parameters, hparse⟩
    obtain ⟨p, hrun, hassign⟩ := ok_of_bind hparse
    by_cases hfits : (∀ f ∈ fields s, f.length ≤ 15) ∧ ([] : List Int32).length + (fields s).length ≤ 6
    · obtain ⟨hlengths, hroom⟩ := hfits
      refine ⟨?_, hlengths⟩
      obtain ⟨p', hrun', hinv⟩ := (invariant_start temp).line hne isseparator_of_mem_fields hlengths hroom
      rw [intercalate_fields, hrun] at hrun'
      cases hrun'
      by_contra hlength
      have hlast := hinv.rez.getElem?_eq (i := 5) (by simp at hroom ⊢; omega)
      apply last_of_assign hassign
      simpa using hlast
    · have herror := (invariant_start temp).line_error hne isseparator_of_mem_fields hfits
      rw [intercalate_fields, hrun] at herror
      cases herror
  · rintro ⟨hlength, hlengths⟩
    match hfields : fields s, hlength with
    | [M, N, seed0, a, b, m], _ => exact ⟨_, parse_of_fields temp hfields hlengths⟩

end

/-- A space after the sixth field: the empty field behind it has no place in `rez`. -/
theorem parse_trailing_space : ¬ ∀ (temp : Vector UInt8 16) (s : CString), s.bytes.length ≤ 63 →
    ∃ parameters, parse temp s = .ok parameters := by
  intro h
  obtain ⟨parameters, hparse⟩ := h (Vector.replicate 16 0)
    ⟨[49, 32, 49, 32, 49, 32, 49, 32, 49, 32, 49, 32], by decide⟩ (by decide)
  have hbounds : parse (Vector.replicate 16 0)
      ⟨[49, 32, 49, 32, 49, 32, 49, 32, 49, 32, 49, 32], by decide⟩ = .error .bounds := rfl
  rw [hbounds] at hparse
  cases hparse

end accelerators.intel_competition
