import HmmCoverage.Support.Python
import Mathlib.Data.Finset.Card
import Mathlib.Algebra.BigOperators.Group.Finset
import Mathlib.Algebra.Order.Ring.Nat

/-!
# Edge-coverage maps of one decoded path

`generate_coverage_map` turns the state path that the Viterbi decoder returns for one
sequence into a flat 0/1 list of length `N * N`: position `s * N + d` is set when the path
steps from state `s` to state `d` somewhere.  This module models it together with the
`np.logical_or` used to merge such maps, and describes every map it builds as
`bitmapOf (N * N) S` for the finite set `S` of positions it sets.

The decoder itself is external.  What the code reads of its result,
`[i[0] for i in viterbi_res[1]]`, is the list of state indices along the path, so a decoder
is modelled as a function from sequences to such lists.
-/

namespace HmmCoverage

/-! ## Edges and their positions -/

/-- The flat position `s * number_of_nodes + d` of the edge `s → d`. -/
def edgeIndex (numberOfNodes : ℕ) (e : ℕ × ℕ) : ℕ :=
  e.1 * numberOfNodes + e.2

/-- The steps `(path[i], path[i + 1])` for `i < len(path) - 1` of a state path. -/
def pathEdges (path : List ℕ) : List (ℕ × ℕ) :=
  (List.range (path.length - 1)).map fun i => (path.getD i 0, path.getD (i + 1) 0)

theorem mem_pathEdges {path : List ℕ} {e : ℕ × ℕ} :
    e ∈ pathEdges path ↔
      ∃ i, i + 1 < path.length ∧ e = (path.getD i 0, path.getD (i + 1) 0) := by
  simp only [pathEdges, List.mem_map, List.mem_range]
  constructor
  · rintro ⟨i, hi, rfl⟩
    exact ⟨i, by omega, rfl⟩
  · rintro ⟨i, hi, rfl⟩
    exact ⟨i, by omega, rfl⟩

theorem length_pathEdges (path : List ℕ) : (pathEdges path).length = path.length - 1 := by
  simp [pathEdges]

/-- Both ends of a step of `path` are states of `path`. -/
theorem mem_of_mem_pathEdges {path : List ℕ} {e : ℕ × ℕ} (he : e ∈ pathEdges path) :
    e.1 ∈ path ∧ e.2 ∈ path := by
  obtain ⟨i, hi, rfl⟩ := mem_pathEdges.mp he
  simp only [List.getD_eq_getElem?_getD, List.getElem?_eq_getElem (by omega : i < path.length),
    List.getElem?_eq_getElem hi, Option.getD_some]
  exact ⟨List.getElem_mem _, List.getElem_mem _⟩

section Encoding

variable {N : ℕ} {e e' : ℕ × ℕ}

theorem edgeIndex_lt (h1 : e.1 < N) (h2 : e.2 < N) : edgeIndex N e < N * N :=
  calc e.1 * N + e.2 < e.1 * N + N := by omega
    _ = (e.1 + 1) * N := by rw [Nat.succ_mul]
    _ ≤ N * N := Nat.mul_le_mul_right N h1

theorem edgeIndex_mod (h2 : e.2 < N) : edgeIndex N e % N = e.2 := by
  rw [edgeIndex, Nat.mul_comm, Nat.mul_add_mod, Nat.mod_eq_of_lt h2]

theorem edgeIndex_div (h2 : e.2 < N) : edgeIndex N e / N = e.1 := by
  have hN : 0 < N := by omega
  rw [edgeIndex, Nat.mul_comm, Nat.mul_add_div hN, Nat.div_eq_of_lt h2, Nat.add_zero]

/-- Two edges whose targets are states never share a position. -/
theorem edgeIndex_inj (h2 : e.2 < N) (h2' : e'.2 < N) (h : edgeIndex N e = edgeIndex N e') :
    e = e' := by
  have h1 : e.1 = e'.1 := by rw [← edgeIndex_div h2, ← edgeIndex_div h2', h]
  have h2 : e.2 = e'.2 := by rw [← edgeIndex_mod h2, ← edgeIndex_mod h2', h]
  exact Prod.ext h1 h2

/-- A step of a path of states below `N` has its position below `N * N`. -/
theorem edgeIndex_lt_of_mem_pathEdges {path : List ℕ} (hpath : ∀ s ∈ path, s < N)
    (he : e ∈ pathEdges path) : edgeIndex N e < N * N :=
  edgeIndex_lt (hpath _ (mem_of_mem_pathEdges he).1) (hpath _ (mem_of_mem_pathEdges he).2)

/-- The positions of the steps of a path are the `path[i] * N + path[i + 1]`. -/
theorem mem_image_pathEdges {path : List ℕ} {j : ℕ} :
    j ∈ (pathEdges path).toFinset.image (edgeIndex N) ↔
      ∃ i, i + 1 < path.length ∧ j = path.getD i 0 * N + path.getD (i + 1) 0 := by
  simp only [Finset.mem_image, List.mem_toFinset, mem_pathEdges]
  constructor
  · rintro ⟨_, ⟨i, hi, rfl⟩, rfl⟩
    exact ⟨i, hi, rfl⟩
  · rintro ⟨i, hi, rfl⟩
    exact ⟨_, ⟨i, hi, rfl⟩, rfl⟩

end Encoding

/-! ## 0/1 lists as presence sets -/

/-- The 0/1 list of length `n` with a one exactly at the positions in `S`. -/
def bitmapOf (n : ℕ) (S : Finset ℕ) : List ℕ :=
  (List.range n).map fun j => if j ∈ S then 1 else 0

@[simp] theorem length_bitmapOf (n : ℕ) (S : Finset ℕ) : (bitmapOf n S).length = n := by
  simp [bitmapOf]

theorem getD_bitmapOf (n : ℕ) (S : Finset ℕ) (j : ℕ) :
    (bitmapOf n S).getD j 0 = if j < n ∧ j ∈ S then 1 else 0 := by
  by_cases hj : j < n
  · simp [bitmapOf, hj]
  · simp [bitmapOf, hj, List.getElem?_eq_none (by simpa using Nat.not_lt.mp hj : (List.range n).length ≤ j)]

theorem getD_bitmapOf_eq_one {n : ℕ} {S : Finset ℕ} {j : ℕ} :
    (bitmapOf n S).getD j 0 = 1 ↔ j < n ∧ j ∈ S := by
  rw [getD_bitmapOf]
  split <;> simp [*]

theorem mem_bitmapOf {n : ℕ} {S : Finset ℕ} {x : ℕ} (hx : x ∈ bitmapOf n S) :
    x = 0 ∨ x = 1 := by
  simp only [bitmapOf, List.mem_map] at hx
  obtain ⟨j, -, rfl⟩ := hx
  split <;> simp

theorem bitmapOf_empty (n : ℕ) : bitmapOf n ∅ = List.replicate n 0 := by
  simp [bitmapOf, List.map_const']

theorem set_bitmapOf (n j : ℕ) (S : Finset ℕ) :
    (bitmapOf n S).set j 1 = bitmapOf n (insert j S) := by
  apply List.ext_getElem (by simp)
  intro i h1 h2
  by_cases hij : j = i
  · subst hij
    simp [bitmapOf]
  · simp [bitmapOf, List.getElem_set, hij, Ne.symm hij]

/-- Summing a 0/1 list counts its ones. -/
theorem sum_bitmapOf {n : ℕ} {S : Finset ℕ} (hS : ∀ j ∈ S, j < n) :
    (bitmapOf n S).sum = S.card := by
  have hfilter : (Finset.range n).filter (· ∈ S) = S := by
    ext j
    simpa using fun hj => hS j hj
  calc (bitmapOf n S).sum
      = ∑ j ∈ Finset.range n, if j ∈ S then 1 else 0 := by
        simp only [bitmapOf, Finset.sum, Finset.range_val, Multiset.range, Multiset.map_coe,
          Multiset.sum_coe]
    _ = ((Finset.range n).filter (· ∈ S)).card := (Finset.card_filter _ _).symm
    _ = S.card := by rw [hfilter]

/-- In a 0/1 list the number of ones is the sum. -/
theorem count_one_eq_sum {l : List ℕ} (hl : ∀ x ∈ l, x = 0 ∨ x = 1) : l.count 1 = l.sum := by
  induction l with
  | nil => rfl
  | cons x l ih =>
    rw [List.count_cons, List.sum_cons, ih fun y hy => hl y (List.mem_cons_of_mem x hy)]
    rcases hl x (List.mem_cons_self x l) with rfl | rfl <;> simp [Nat.add_comm]

/-! ## The coverage map of one path, and merging maps -/

/-- `generate_coverage_map`, given the decoded state indices: start from
`number_of_nodes * number_of_nodes` zeros and set
`coverage[estimated_nodes[i] * number_of_nodes + estimated_nodes[i + 1]] = 1` for every step. -/
def generateCoverageMap (estimatedNodes : List ℕ) (numberOfNodes : ℕ) :
    Except PyError (List ℕ) :=
  (List.range (estimatedNodes.length - 1)).foldlM
    (fun coverage i => setItem coverage
      (estimatedNodes.getD i 0 * numberOfNodes + estimatedNodes.getD (i + 1) 0) 1)
    (List.replicate (numberOfNodes * numberOfNodes) 0)

/-- `np.logical_or` on two coverage lists, with `True` and `False` read as the integers `1`
and `0` that `sum` then adds up.  Both operands always have length `N * N` here, so NumPy's
broadcasting never comes into play. -/
def logicalOr (xs ys : List ℕ) : List ℕ :=
  List.zipWith (fun x y => if x ≠ 0 ∨ y ≠ 0 then 1 else 0) xs ys

/-- The loop of `generate_coverage_map` runs over the steps of the path. -/
theorem generateCoverageMap_eq (path : List ℕ) (N : ℕ) :
    generateCoverageMap path N =
      (pathEdges path).foldlM (fun coverage e => setItem coverage (edgeIndex N e) 1)
        (bitmapOf (N * N) ∅) := by
  rw [generateCoverageMap, pathEdges, List.foldlM_map, bitmapOf_empty]
  rfl

/-- Setting in-range positions one after another adds them to the presence set. -/
theorem foldlM_setItem_bitmapOf {n : ℕ} (idx : ℕ × ℕ → ℕ) (es : List (ℕ × ℕ)) (S : Finset ℕ)
    (hes : ∀ e ∈ es, idx e < n) :
    es.foldlM (fun coverage e => setItem coverage (idx e) 1) (bitmapOf n S) =
      .ok (bitmapOf n (S ∪ es.toFinset.image idx)) := by
  induction es generalizing S with
  | nil => simp
  | cons e es ih =>
    have he : idx e < (bitmapOf n S).length := by simpa using hes e (List.mem_cons_self e es)
    rw [List.foldlM_cons, setItem_of_lt 1 he, ok_bind, set_bitmapOf,
      ih _ fun e' he' => hes e' (List.mem_cons_of_mem e he')]
    simp [Finset.insert_union, Finset.union_insert]

/-- A position outside the list makes the loop raise when it reaches it. -/
theorem foldlM_setItem_bitmapOf_error {n : ℕ} (idx : ℕ × ℕ → ℕ) (es : List (ℕ × ℕ))
    (S : Finset ℕ) (hes : ∃ e ∈ es, n ≤ idx e) :
    es.foldlM (fun coverage e => setItem coverage (idx e) 1) (bitmapOf n S) =
      .error .indexError := by
  induction es generalizing S with
  | nil => simp at hes
  | cons e es ih =>
    rw [List.foldlM_cons]
    by_cases he : idx e < n
    · have hrest : ∃ e' ∈ es, n ≤ idx e' := by
        obtain ⟨e', he', hle⟩ := hes
        rcases List.mem_cons.mp he' with rfl | he'
        · omega
        · exact ⟨e', he', hle⟩
      rw [setItem_of_lt 1 (by simpa using he), ok_bind, set_bitmapOf, ih _ hrest]
    · rw [setItem_of_le 1 (by simpa using he), error_bind]

/-- `generate_coverage_map` raises exactly when the position `s * N + d` of some step lies
outside the `N * N` list, and otherwise sets exactly the steps' positions.  A step with an
out-of-range state whose position still falls inside the list is therefore recorded at
the position of another edge. -/
theorem generateCoverageMap_eq_ite (path : List ℕ) (N : ℕ) :
    generateCoverageMap path N =
      if ∀ e ∈ pathEdges path, edgeIndex N e < N * N then
        .ok (bitmapOf (N * N) ((pathEdges path).toFinset.image (edgeIndex N)))
      else .error .indexError := by
  rw [generateCoverageMap_eq]
  split
  · rw [foldlM_setItem_bitmapOf _ _ _ ‹_›, Finset.empty_union]
  · push_neg at *
    exact foldlM_setItem_bitmapOf_error _ _ _ ‹_›

/-- For a path of states below `N`, `generate_coverage_map` returns the 0/1 list of the
positions of the path's steps. -/
theorem generateCoverageMap_spec {path : List ℕ} {N : ℕ} (hpath : ∀ s ∈ path, s < N) :
    generateCoverageMap path N =
      .ok (bitmapOf (N * N) ((pathEdges path).toFinset.image (edgeIndex N))) := by
  rw [generateCoverageMap_eq, foldlM_setItem_bitmapOf, Finset.empty_union]
  exact fun e he => edgeIndex_lt_of_mem_pathEdges hpath he

theorem logicalOr_bitmapOf (n : ℕ) (S T : Finset ℕ) :
    logicalOr (bitmapOf n S) (bitmapOf n T) = bitmapOf n (S ∪ T) := by
  simp only [logicalOr, bitmapOf, List.zipWith_map, List.zipWith_same]
  apply List.map_congr_left
  intro j _
  by_cases hS : j ∈ S <;> by_cases hT : j ∈ T <;> simp [hS, hT]

/-- The state `4` is not a state of a three-state model, yet the step `0 → 4` of the path
`[0, 4]` lands on the position `4 = 1 * 3 + 1` of the edge `1 → 1`: the map is returned with
that edge set instead of raising. -/
theorem generateCoverageMap_out_of_range :
    generateCoverageMap [0, 4] 3 = .ok [0, 0, 0, 0, 1, 0, 0, 0, 0] ∧
      edgeIndex 3 (0, 4) = edgeIndex 3 (1, 1) :=
  ⟨rfl, rfl⟩

end HmmCoverage
