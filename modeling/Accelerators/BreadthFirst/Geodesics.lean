import Mathlib.Data.Finset.Basic
import Mathlib.Data.Nat.Find
import Mathlib.Tactic.Common

namespace breadth_first

/-- A deterministic system: every move changes every state. -/
structure System (S M : Type) where
  initial : S
  moves : List M
  change : M → S → S

namespace System

variable {S M : Type} (T : System S M)

/-- The state that a history leads to. The last move is the first of the list. -/
def replay (history : List M) : S := history.foldr T.change T.initial

/-- The moves of a history are moves of the system. -/
def Plays (history : List M) : Prop := ∀ m ∈ history, m ∈ T.moves

/-- No history leads to the same state in fewer moves. -/
def Geodesic (history : List M) : Prop :=
  T.Plays history ∧ ∀ other, T.Plays other → T.replay other = T.replay history → history.length ≤ other.length

/-- The least number of moves that lead to a state is `k`. -/
def HasDistance (s : S) (k : Nat) : Prop :=
  ∃ history, T.Geodesic history ∧ T.replay history = s ∧ history.length = k

/-- A set of states consists of the states that some `k` moves or fewer lead to. -/
def Covers (explored : Finset S) (k : Nat) : Prop :=
  ∀ s, s ∈ explored ↔ ∃ history, T.Plays history ∧ T.replay history = s ∧ history.length ≤ k

@[simp] theorem replay_nil : T.replay [] = T.initial := rfl

@[simp] theorem replay_cons (m : M) (history : List M) :
    T.replay (m :: history) = T.change m (T.replay history) := rfl

@[simp] theorem plays_nil : T.Plays [] := List.forall_mem_nil _

@[simp] theorem plays_cons (m : M) (history : List M) :
    T.Plays (m :: history) ↔ m ∈ T.moves ∧ T.Plays history :=
  List.forall_mem_cons

theorem geodesic_nil : T.Geodesic [] := ⟨T.plays_nil, fun _ _ _ => Nat.zero_le _⟩

theorem covers_zero [DecidableEq S] : T.Covers {T.initial} 0 := by
  intro s
  rw [Finset.mem_singleton]
  constructor
  · rintro rfl
    exact ⟨[], T.plays_nil, rfl, le_rfl⟩
  · rintro ⟨history, -, rfl, hlen⟩
    rw [List.length_eq_zero_iff.mp (Nat.le_zero.mp hlen), replay_nil]

variable {T}

/-- Every state that is reached at all is reached by a shortest history. -/
theorem Plays.exists_geodesic {history : List M} (h : T.Plays history) :
    ∃ best, T.Geodesic best ∧ T.replay best = T.replay history ∧ best.length ≤ history.length := by
  classical
  have hex : ∃ k other, T.Plays other ∧ T.replay other = T.replay history ∧ other.length = k :=
    ⟨history.length, history, h, rfl, rfl⟩
  obtain ⟨best, hplays, hreplay, hlen⟩ := Nat.find_spec hex
  refine ⟨best, ⟨hplays, fun other hother heq => ?_⟩, hreplay, ?_⟩
  · rw [hlen]
    exact Nat.find_min' hex ⟨other, hother, heq.trans hreplay, rfl⟩
  · rw [hlen]
    exact Nat.find_min' hex ⟨history, h, rfl, rfl⟩

/-- A shortest history without its last move is a shortest history. -/
theorem Geodesic.of_cons {m : M} {history : List M} (h : T.Geodesic (m :: history)) : T.Geodesic history := by
  obtain ⟨hm, hplays⟩ := (T.plays_cons m history).mp h.1
  refine ⟨hplays, fun other hother heq => ?_⟩
  have hle := h.2 (m :: other) ((T.plays_cons m other).mpr ⟨hm, hother⟩) (by simp [heq])
  simpa using hle

/-- A shortest history of `k` moves stays a shortest one with one more move
    exactly when it leaves the states of the first `k` levels. -/
theorem Covers.geodesic_cons {explored : Finset S} {m : M} {history : List M}
    (hcovers : T.Covers explored history.length) :
    T.Geodesic (m :: history) ↔
      T.Geodesic history ∧ m ∈ T.moves ∧ T.replay (m :: history) ∉ explored := by
  constructor
  · intro h
    refine ⟨h.of_cons, ((T.plays_cons m history).mp h.1).1, fun hmem => ?_⟩
    obtain ⟨other, hother, heq, hlen⟩ := (hcovers _).mp hmem
    have hle := h.2 other hother heq
    rw [List.length_cons] at hle
    omega
  · rintro ⟨h, hm, hnew⟩
    refine ⟨(T.plays_cons m history).mpr ⟨hm, h.1⟩, fun other hother heq => ?_⟩
    by_contra hlt
    rw [List.length_cons] at hlt
    exact hnew ((hcovers _).mpr ⟨other, hother, heq, by omega⟩)

/-- The states of one more level are the ends of the shortest histories of
    that length. -/
theorem Covers.succ {explored next : Finset S} {k : Nat} (hcovers : T.Covers explored k)
    (hnext : ∀ s, s ∈ next ↔ s ∈ explored ∨ T.HasDistance s (k + 1)) : T.Covers next (k + 1) := by
  intro s
  rw [hnext, hcovers]
  constructor
  · rintro (⟨history, hplays, hreplay, hlen⟩ | ⟨history, hgeodesic, hreplay, hlen⟩)
    · exact ⟨history, hplays, hreplay, by omega⟩
    · exact ⟨history, hgeodesic.1, hreplay, hlen.le⟩
  · rintro ⟨history, hplays, rfl, hlen⟩
    obtain ⟨best, hbest, hreplay, hle⟩ := hplays.exists_geodesic
    obtain hlt | hge := Nat.lt_or_ge k best.length
    · exact .inr ⟨best, hbest, hreplay, by omega⟩
    · exact .inl ⟨best, hbest.1, hreplay, hge⟩

/-- Beyond an empty level there is no other. -/
theorem length_lt_of_empty_level {k : Nat} (hempty : ∀ history, T.Geodesic history → history.length ≠ k)
    {history : List M} (h : T.Geodesic history) : history.length < k := by
  induction history with
  | nil => exact Nat.pos_of_ne_zero (fun hk => hempty [] h (by simp [hk]))
  | cons m history ih =>
    have hlt := ih h.of_cons
    have hne := hempty (m :: history) h
    rw [List.length_cons] at hne ⊢
    omega

end System

end breadth_first
