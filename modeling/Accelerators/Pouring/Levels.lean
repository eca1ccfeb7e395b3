import Mathlib.Data.List.FinRange
import Accelerators.BreadthFirst.Geodesics
import Accelerators.Pouring

open breadth_first

namespace accelerators.pouring

variable {n : Nat}

/-- The puzzle as a system of states and moves. -/
def system (capacity : State n) : System (State n) (Move n) :=
  ⟨initialState, moves n, Move.change capacity⟩

theorem moves_nodup (n : Nat) : (moves n).Nodup := by
  have hglasses : (glasses n).Nodup := List.nodup_finRange n
  have hempty : ((glasses n).map Move.Empty).Nodup := hglasses.map fun a b h => by cases h; rfl
  have hfill : ((glasses n).map Move.Fill).Nodup := hglasses.map fun a b h => by cases h; rfl
  have hpour : ((glasses n).flatMap fun fromGlass =>
      ((glasses n).filter (fromGlass ≠ ·)).map (Move.Pour fromGlass)).Nodup := by
    rw [List.nodup_flatMap]
    refine ⟨fun fromGlass _ => (hglasses.filter _).map fun a b h => by cases h; rfl, ?_⟩
    refine hglasses.imp fun {a b} hne move ha hb => ?_
    obtain ⟨toGlass, -, rfl⟩ := List.mem_map.mp ha
    obtain ⟨toGlass', -, heq⟩ := List.mem_map.mp hb
    cases heq
    exact hne rfl
  refine (hempty.append hfill ?_).append hpour ?_
  · intro move ha hb
    obtain ⟨glass, -, rfl⟩ := List.mem_map.mp ha
    obtain ⟨glass', -, heq⟩ := List.mem_map.mp hb
    cases heq
  · intro move ha hb
    obtain ⟨fromGlass, -, hb⟩ := List.mem_flatMap.mp hb
    obtain ⟨toGlass, -, rfl⟩ := List.mem_map.mp hb
    simp at ha

/-- The search at level `k`: the paths are the shortest histories of `k` moves,
    each of them once, and the states of at most `k` moves are explored. -/
structure Level (capacity : State n) (k : Nat) (paths : List (Path n)) (explored : Finset (State n)) : Prop where
  nodup : (paths.map Path.history).Nodup
  mem : ∀ path, path ∈ paths ↔ (system capacity).Geodesic path.history ∧ path.history.length = k ∧
    path.endState = (system capacity).replay path.history
  covers : (system capacity).Covers explored k

variable {capacity : State n} {order : SetOrder (Path n)}

theorem level_zero : Level capacity 0 [initialPath] {initialState} where
  nodup := List.nodup_singleton _
  mem := by
    rintro ⟨history, endState⟩
    rw [List.mem_singleton, List.length_eq_zero_iff]
    constructor
    · intro h
      cases h
      exact ⟨(system capacity).geodesic_nil, rfl, rfl⟩
    · rintro ⟨-, rfl, hend⟩
      exact congrArg (Path.mk []) hend
  covers := (system capacity).covers_zero

theorem mem_more {paths : List (Path n)} {explored : Finset (State n)} {next : Path n} :
    next ∈ more capacity order paths explored ↔
      ∃ path ∈ paths, ∃ move ∈ moves n, next = path.extend capacity move ∧ next.endState ∉ explored := by
  simp only [more, List.mem_flatMap, List.mem_filter, List.mem_map, decide_eq_true_eq]
  constructor
  · rintro ⟨path, hpath, ⟨move, hmove, rfl⟩, hnew⟩
    exact ⟨path, (order.perm paths).mem_iff.mp hpath, move, hmove, rfl, hnew⟩
  · rintro ⟨path, hpath, move, hmove, rfl, hnew⟩
    exact ⟨path, (order.perm paths).mem_iff.mpr hpath, ⟨move, hmove, rfl⟩, hnew⟩

/-- Extending different paths, or one path by different moves, gives different histories. -/
theorem more_nodup {paths : List (Path n)} (hnodup : (paths.map Path.history).Nodup)
    (explored : Finset (State n)) : ((more capacity order paths explored).map Path.history).Nodup := by
  have hdistinct : ((order.iterate paths).map Path.history).Nodup :=
    ((order.perm paths).map _).nodup_iff.mpr hnodup
  rw [more, List.map_flatMap, List.nodup_flatMap]
  constructor
  · intro path _
    have hall : (((moves n).map (path.extend capacity)).map Path.history).Nodup := by
      rw [List.map_map]
      exact (moves_nodup n).map fun a b h => (List.cons.inj h).1
    exact hall.sublist (List.filter_sublist.map _)
  · refine (List.pairwise_map.mp hdistinct).imp fun {path path'} hne history hleft hright => ?_
    obtain ⟨next, hnext, rfl⟩ := List.mem_map.mp hleft
    obtain ⟨next', hnext', heq⟩ := List.mem_map.mp hright
    obtain ⟨move, -, rfl⟩ := List.mem_map.mp (List.mem_filter.mp hnext).1
    obtain ⟨move', -, rfl⟩ := List.mem_map.mp (List.mem_filter.mp hnext').1
    exact hne (List.cons.inj heq).2.symm

/-- The search goes from one level to the next. -/
theorem Level.succ {k : Nat} {paths : List (Path n)} {explored : Finset (State n)}
    (h : Level capacity k paths explored) :
    Level capacity (k + 1) (more capacity order paths explored)
      (explored ∪ ((more capacity order paths explored).map Path.endState).toFinset) := by
  have hmem : ∀ next, next ∈ more capacity order paths explored ↔
      (system capacity).Geodesic next.history ∧ next.history.length = k + 1 ∧
        next.endState = (system capacity).replay next.history := by
    intro next
    rw [mem_more]
    constructor
    · rintro ⟨path, hpath, move, hmove, rfl, hnew⟩
      obtain ⟨hgeodesic, rfl, hend⟩ := (h.mem path).mp hpath
      have hreplay : (path.extend capacity move).endState =
          (system capacity).replay (move :: path.history) := by
        rw [System.replay_cons, ← hend]
        rfl
      exact ⟨h.covers.geodesic_cons.mpr ⟨hgeodesic, hmove, hreplay ▸ hnew⟩, rfl, hreplay⟩
    · obtain ⟨history, endState⟩ := next
      rintro ⟨hgeodesic, hlen, hend⟩
      cases history with
      | nil => cases hlen
      | cons move history =>
        obtain rfl : history.length = k := Nat.succ.inj hlen
        obtain ⟨hshort, hmove, hnew⟩ := h.covers.geodesic_cons.mp hgeodesic
        exact ⟨⟨history, (system capacity).replay history⟩, (h.mem _).mpr ⟨hshort, rfl, rfl⟩, move, hmove,
          congrArg (Path.mk _) hend, hend ▸ hnew⟩
  refine ⟨more_nodup h.nodup explored, hmem, h.covers.succ fun s => ?_⟩
  rw [Finset.mem_union, List.mem_toFinset, List.mem_map]
  refine or_congr_right ⟨?_, ?_⟩
  · rintro ⟨next, hnext, rfl⟩
    obtain ⟨hgeodesic, hlen, hend⟩ := (hmem next).mp hnext
    exact ⟨next.history, hgeodesic, hend.symm, hlen⟩
  · rintro ⟨history, hgeodesic, rfl, hlen⟩
    exact ⟨⟨history, (system capacity).replay history⟩, (hmem _).mpr ⟨hgeodesic, hlen, rfl⟩, rfl⟩

theorem Level.length_lt_of_nil {k : Nat} {explored : Finset (State n)} (h : Level capacity k [] explored)
    {history : List (Move n)} (hgeodesic : (system capacity).Geodesic history) : history.length < k := by
  refine System.length_lt_of_empty_level (fun history hgeodesic hlen => ?_) hgeodesic
  have hmem : (⟨history, (system capacity).replay history⟩ : Path n) ∈ [] :=
    (h.mem _).mpr ⟨hgeodesic, hlen, rfl⟩
  exact List.not_mem_nil hmem

/-- The elements of the stream from level `k` on are the levels that follow. -/
theorem Level.of_getElem? {k : Nat} {paths : List (Path n)} {explored : Finset (State n)}
    (h : Level capacity k paths explored) (j : Nat) {pathSet : List (Path n)}
    (hget : (fromPaths capacity order paths explored)[j]? = some pathSet) :
    ∃ seen, Level capacity (k + j) pathSet seen := by
  fun_induction fromPaths capacity order paths explored generalizing k j with
  | case1 explored => cases hget
  | case2 paths explored hpaths ih =>
    cases j with
    | zero =>
      obtain rfl : paths = pathSet := by simpa using hget
      exact ⟨explored, h⟩
    | succ j =>
      obtain ⟨seen, hseen⟩ := ih h.succ j (by simpa using hget)
      exact ⟨seen, by rwa [Nat.add_right_comm] at hseen⟩

/-- Where the stream ends, there are no more levels. -/
theorem Level.of_getElem?_none {k : Nat} {paths : List (Path n)} {explored : Finset (State n)}
    (h : Level capacity k paths explored) (j : Nat)
    (hget : (fromPaths capacity order paths explored)[j]? = none) {history : List (Move n)}
    (hgeodesic : (system capacity).Geodesic history) : history.length < k + j := by
  fun_induction fromPaths capacity order paths explored generalizing k j with
  | case1 explored => exact (h.length_lt_of_nil hgeodesic).trans_le (Nat.le_add_right k j)
  | case2 paths explored hpaths ih =>
    cases j with
    | zero => simp at hget
    | succ j =>
      have hlt := ih h.succ j (by simpa using hget)
      omega

/-- The paths to states that contain the target, with the shortest of each. -/
theorem mem_solution {target : Int32} {path : Path n} :
    path ∈ solution capacity order target ↔ (system capacity).Geodesic path.history ∧
      path.endState = (system capacity).replay path.history ∧ ∃ glass, path.endState glass = target := by
  simp only [solution, List.mem_flatMap, List.mem_filter, decide_eq_true_eq]
  constructor
  · rintro ⟨pathSet, hpathSet, hpath, htarget⟩
    obtain ⟨k, hk⟩ := List.mem_iff_getElem?.mp hpathSet
    obtain ⟨seen, hlevel⟩ := level_zero.of_getElem? k hk
    obtain ⟨hgeodesic, -, hend⟩ := (hlevel.mem path).mp ((order.perm pathSet).mem_iff.mp hpath)
    exact ⟨hgeodesic, hend, htarget⟩
  · rintro ⟨hgeodesic, hend, htarget⟩
    cases hget : (pathSets capacity order)[path.history.length]? with
    | none =>
      have hlt := level_zero.of_getElem?_none _ hget hgeodesic
      omega
    | some pathSet =>
      obtain ⟨seen, hlevel⟩ := level_zero.of_getElem? _ hget
      have hpath := (hlevel.mem path).mpr ⟨hgeodesic, (Nat.zero_add _).symm, hend⟩
      exact ⟨pathSet, List.mem_of_getElem? hget, (order.perm pathSet).mem_iff.mpr hpath, htarget⟩

theorem solution_sorted (target : Int32) :
    (solution capacity order target).Pairwise fun p q => p.history.length ≤ q.history.length := by
  have hlength : ∀ k (hk : k < (pathSets capacity order).length), ∀ path,
      path ∈ (order.iterate (pathSets capacity order)[k]).filter
        (fun path => ∃ glass, path.endState glass = target) → path.history.length = k := by
    intro k hk path hpath
    obtain ⟨seen, hlevel⟩ := level_zero.of_getElem? k (List.getElem?_eq_getElem hk)
    have hmem := (order.perm _).mem_iff.mp (List.mem_filter.mp hpath).1
    simpa using ((hlevel.mem path).mp hmem).2.1
  rw [solution, List.pairwise_flatMap]
  refine ⟨fun pathSet hpathSet => ?_, List.pairwise_iff_getElem.mpr fun i j hi hj hij p hp q hq => ?_⟩
  · obtain ⟨k, hk, rfl⟩ := List.mem_iff_getElem.mp hpathSet
    refine List.pairwise_of_forall_mem_list fun p hp q hq => ?_
    rw [hlength k hk p hp, hlength k hk q hq]
  · rw [hlength i hi p hp, hlength j hj q hq]
    exact hij.le

/-- `pathSets` is an exact breadth-first enumeration: its `k`-th element holds
    every shortest history of `k` moves once and nothing else, and where it has
    none no state is `k` moves away. So `solution` lists all shortest histories to
    states that contain the target by length, and begins with a shortest one. -/
theorem pathSets_exact (capacity : State n) (order : SetOrder (Path n)) :
    (∀ (k : Nat) (pathSet : List (Path n)), (pathSets capacity order)[k]? = some pathSet →
      (pathSet.map Path.history).Nodup ∧
      ∀ path, path ∈ pathSet ↔ (system capacity).Geodesic path.history ∧ path.history.length = k ∧
        path.endState = (system capacity).replay path.history) ∧
    (∀ k : Nat, (pathSets capacity order)[k]? = none → ∀ s, ¬ (system capacity).HasDistance s k) ∧
    ∀ target,
      (∀ path, path ∈ solution capacity order target ↔ (system capacity).Geodesic path.history ∧
        path.endState = (system capacity).replay path.history ∧ ∃ glass, path.endState glass = target) ∧
      ((solution capacity order target).Pairwise fun p q => p.history.length ≤ q.history.length) ∧
      ∀ path, (solution capacity order target).head? = some path →
        (system capacity).Plays path.history ∧ path.endState = (system capacity).replay path.history ∧
        (∃ glass, path.endState glass = target) ∧
        ∀ history, (system capacity).Plays history →
          (∃ glass, (system capacity).replay history glass = target) → path.history.length ≤ history.length := by
  refine ⟨fun k pathSet hget => ?_, ?_, fun target =>
    ⟨fun path => mem_solution, solution_sorted target, fun path hhead => ?_⟩⟩
  · obtain ⟨seen, hlevel⟩ := level_zero.of_getElem? k hget
    rw [Nat.zero_add] at hlevel
    exact ⟨hlevel.nodup, hlevel.mem⟩
  · rintro k hget s ⟨history, hgeodesic, rfl, rfl⟩
    have hlt := level_zero.of_getElem?_none _ hget hgeodesic
    omega
  · obtain ⟨rest, hsolution⟩ := List.head?_eq_some_iff.mp hhead
    have hsorted : (solution capacity order target).Pairwise _ := solution_sorted target
    rw [hsolution, List.pairwise_cons] at hsorted
    have hmem : path ∈ solution capacity order target := by rw [hsolution]; exact List.mem_cons_self
    obtain ⟨hgeodesic, hend, htarget⟩ := mem_solution.mp hmem
    refine ⟨hgeodesic.1, hend, htarget, fun history hplays htarget' => ?_⟩
    obtain ⟨best, hbest, hreplay, hle⟩ := hplays.exists_geodesic
    have hlisted : (⟨best, (system capacity).replay best⟩ : Path n) ∈ solution capacity order target :=
      mem_solution.mpr ⟨hbest, rfl, by simpa only [hreplay] using htarget'⟩
    rw [hsolution] at hlisted
    obtain hfirst | hrest := List.mem_cons.mp hlisted
    · rw [← hfirst]
      exact hle
    · exact (hsorted.1 _ hrest).trans hle

end accelerators.pouring
