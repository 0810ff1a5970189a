import HmmCoverage.Coverage.Accumulate
import HmmCoverage.Measures.Candidates

/-!
# The curves handed to dynamic time warping

Besides the similarity score, `measures.py` compares two coverage curves by dynamic time
warping, `sm.dtw` of the `similaritymeasures` package, in two ways, and prints the distance.
`dtw_normalized_increases` replaces each curve by the running count of its strict
increases; `dtw_y` swaps the axes of each curve and sorts its points by value.  The distance
is the library's, and both functions return `None`: they are modelled by the point lists they
hand to `sm.dtw`.

`dtw_normalized_increases` walks both curves over the index range of the fuzzer curve.  It
reads the HMM curve only up to the fuzzer's length and raises `IndexError` when the HMM curve
is shorter (`dtwNormalizedIncreases_eq`).  Python's sort is stable, so `dtw_y` orders points
of equal value by index (`dtwYRows_spec`).  On the traces `calculate_coverage` returns, the
sort of `dtw_y` keeps the points in index order, and the running count of
`dtw_normalized_increases` counts the sequences that cover a new edge
(`dtw_calculateCoverage`).
-/

namespace HmmCoverage

/-! ## Running counts of increases -/

/-- The loop variables of `dtw_normalized_increases`. -/
structure IncreaseState where
  numberOfIncreasesFuzzer : ℕ
  numberOfIncreasesHmm : ℕ
  normalizedFuzzer : List ℕ
  normalizedHmm : List ℕ

/-- The pass `i` of the loop: count a strict increase `c[i - 1] < c[i]` of each curve, then
append the count.  The fuzzer curve is read before the HMM curve. -/
def increaseStep (fuzzer hmm : List ℚ) (s : IncreaseState) (i : ℕ) :
    Except PyError IncreaseState := do
  let fuzzerI ← getItem fuzzer i
  let fuzzerPrev ← getItem fuzzer (i - 1)
  let numberOfIncreasesFuzzer :=
    if fuzzerI > fuzzerPrev then s.numberOfIncreasesFuzzer + 1 else s.numberOfIncreasesFuzzer
  let hmmI ← getItem hmm i
  let hmmPrev ← getItem hmm (i - 1)
  let numberOfIncreasesHmm :=
    if hmmI > hmmPrev then s.numberOfIncreasesHmm + 1 else s.numberOfIncreasesHmm
  return ⟨numberOfIncreasesFuzzer, numberOfIncreasesHmm,
    s.normalizedFuzzer ++ [numberOfIncreasesFuzzer], s.normalizedHmm ++ [numberOfIncreasesHmm]⟩

/-- `dtw_normalized_increases(fuzzer, hmm)`: the rows `(x, count)` of `data1` and `data2`, with
`xs = range(len(normalized_fuzzer))` as the first column of both, that it hands to `sm.dtw`. -/
def dtwNormalizedIncreases (fuzzer hmm : List ℚ) :
    Except PyError (List (ℕ × ℕ) × List (ℕ × ℕ)) := do
  let s ← (List.range' 1 (fuzzer.length - 1)).foldlM (increaseStep fuzzer hmm) ⟨0, 0, [0], [0]⟩
  let xs := List.range s.normalizedFuzzer.length
  return (xs.zip s.normalizedFuzzer, xs.zip s.normalizedHmm)

/-- Spec side: how many of the steps `c[j] → c[j + 1]` with `j < i` go strictly up. -/
def increasesUpTo (c : List ℚ) (i : ℕ) : ℕ :=
  ((List.range i).filter fun j => c.getD j 0 < c.getD (j + 1) 0).length

/-- Spec side: the points `(i, increasesUpTo c i)` for `i < n`. -/
def increaseCurve (c : List ℚ) (n : ℕ) : List (ℕ × ℕ) :=
  (List.range n).map fun i => (i, increasesUpTo c i)

theorem increasesUpTo_succ (c : List ℚ) (i : ℕ) :
    increasesUpTo c (i + 1) =
      increasesUpTo c i + if c.getD i 0 < c.getD (i + 1) 0 then 1 else 0 := by
  unfold increasesUpTo
  rw [List.range_succ, List.filter_append, List.length_append]
  simp only [List.filter_cons, List.filter_nil, decide_eq_true_eq]
  split <;> rfl

/-- The loop variables after the pass `i = k`, or before the loop for `k = 0`. -/
def increaseStateAt (fuzzer hmm : List ℚ) (k : ℕ) : IncreaseState :=
  ⟨increasesUpTo fuzzer k, increasesUpTo hmm k, (List.range (k + 1)).map (increasesUpTo fuzzer),
    (List.range (k + 1)).map (increasesUpTo hmm)⟩

section Loop

variable {fuzzer hmm : List ℚ}

/-- A pass over an index of both curves counts the step into it. -/
theorem increaseStep_of_lt {k : ℕ} (hf : k + 1 < fuzzer.length) (hh : k + 1 < hmm.length) :
    increaseStep fuzzer hmm (increaseStateAt fuzzer hmm k) (k + 1) =
      .ok (increaseStateAt fuzzer hmm (k + 1)) := by
  simp only [increaseStep, Nat.add_sub_cancel, getItem_eq_ok_getD hf 0, getItem_eq_ok_getD hh 0,
    getItem_eq_ok_getD (Nat.lt_of_succ_lt hf) 0, getItem_eq_ok_getD (Nat.lt_of_succ_lt hh) 0,
    ok_bind, pure_eq_ok, increaseStateAt, increasesUpTo_succ, List.range_succ, List.map_append,
    List.map_singleton, gt_iff_lt]
  split_ifs <;> rfl

/-- A pass over an index the HMM curve does not have raises `IndexError`. -/
theorem increaseStep_of_le {i : ℕ} (hf : i < fuzzer.length) (hh : hmm.length ≤ i)
    (s : IncreaseState) : increaseStep fuzzer hmm s i = .error .indexError := by
  simp [increaseStep, getItem_of_lt hf, getItem_of_lt (Nat.lt_of_le_of_lt (Nat.sub_le i 1) hf),
    getItem_of_le hh]

/-- The passes `k + 1, …, k + m` over indices of both curves count their steps. -/
theorem foldlM_increaseStep {k : ℕ} (m : ℕ) (hf : k + m < fuzzer.length)
    (hh : k + m < hmm.length) :
    (List.range' (k + 1) m).foldlM (increaseStep fuzzer hmm) (increaseStateAt fuzzer hmm k) =
      .ok (increaseStateAt fuzzer hmm (k + m)) := by
  induction m generalizing k with
  | zero => rfl
  | succ m ih =>
    rw [List.range'_succ, List.foldlM_cons, increaseStep_of_lt (by omega) (by omega), ok_bind,
      ih (by omega) (by omega), Nat.add_right_comm]
    rfl

/-- Passes that reach an index the HMM curve does not have raise `IndexError`. -/
theorem foldlM_increaseStep_error {k : ℕ} (m : ℕ) (hf : k + m < fuzzer.length)
    (hh : hmm.length ≤ k + m) (hm : 0 < m) :
    (List.range' (k + 1) m).foldlM (increaseStep fuzzer hmm) (increaseStateAt fuzzer hmm k) =
      .error .indexError := by
  induction m generalizing k with
  | zero => omega
  | succ m ih =>
    rw [List.range'_succ, List.foldlM_cons]
    by_cases hk : k + 1 < hmm.length
    · rw [increaseStep_of_lt (by omega) hk, ok_bind, ih (by omega) (by omega) (by omega)]
    · rw [increaseStep_of_le (by omega) (by omega), error_bind]

end Loop

theorem zip_range_map (n : ℕ) (f : ℕ → ℕ) :
    (List.range n).zip ((List.range n).map f) = (List.range n).map fun i => (i, f i) := by
  apply List.ext_getElem <;> simp

/-- For all curves: `dtw_normalized_increases` raises `IndexError` exactly when the fuzzer
curve has at least two points and the HMM curve fewer points than it; otherwise it hands to
`sm.dtw` the running counts of strict increases of both curves over the first
`max(len(fuzzer), 1)` indices, so the HMM points beyond the fuzzer's length are never read. -/
theorem dtwNormalizedIncreases_eq (fuzzer hmm : List ℚ) :
    dtwNormalizedIncreases fuzzer hmm =
      if 2 ≤ fuzzer.length ∧ hmm.length < fuzzer.length then .error .indexError
      else .ok (increaseCurve fuzzer (max fuzzer.length 1),
        increaseCurve hmm (max fuzzer.length 1)) := by
  have hinit : (⟨0, 0, [0], [0]⟩ : IncreaseState) = increaseStateAt fuzzer hmm 0 := rfl
  split_ifs with h
  · rw [dtwNormalizedIncreases, hinit, show 1 = 0 + 1 from rfl,
      foldlM_increaseStep_error _ (by omega) (by omega) (by omega), error_bind]
  · rcases Nat.lt_or_ge fuzzer.length 2 with hshort | hlong
    · rw [dtwNormalizedIncreases, show fuzzer.length - 1 = 0 by omega,
        show max fuzzer.length 1 = 1 by omega]
      rfl
    · rw [dtwNormalizedIncreases, hinit, show 1 = 0 + 1 from rfl,
        foldlM_increaseStep _ (by omega) (by omega), ok_bind]
      simp only [increaseStateAt, List.length_map, List.length_range,
        show 0 + (fuzzer.length - 1) + 1 = max fuzzer.length 1 by omega, zip_range_map]
      rfl

/-! ## Points sorted by value -/

/-- `sorted(points, key=lambda x: x[1])`: Python's stable sort on the value. -/
def sortByValue (points : List (ℕ × ℚ)) : List (ℕ × ℚ) :=
  points.mergeSort fun x y => x.2 ≤ y.2

/-- The rows `(x[1], x[0])` that `dtw_y` builds for one curve: the points
`[(i, c[i]) for i in range(len(c))]`, sorted by value, with the axes swapped. -/
def dtwYRows (c : List ℚ) : List (ℚ × ℕ) :=
  (sortByValue c.enum).map Prod.swap

/-- `dtw_y(fuzzer, hmm)`: the rows of `data1` and `data2` that it hands to `sm.dtw`. -/
def dtwY (fuzzer hmm : List ℚ) : List (ℚ × ℕ) × List (ℚ × ℕ) :=
  (dtwYRows fuzzer, dtwYRows hmm)

theorem pairwise_enum_fst (c : List ℚ) : c.enum.Pairwise fun x y => x.1 < y.1 :=
  List.pairwise_map.mp (by rw [List.enum_map_fst]; exact List.pairwise_lt_range _)

/-- For every curve, `dtw_y` hands to `sm.dtw` each of its points `(c[i], i)` once, ordered by
value and, among equal values, by index. -/
theorem dtwYRows_spec (c : List ℚ) :
    (dtwYRows c).Perm (c.enum.map Prod.swap) ∧
      (dtwYRows c).Pairwise fun a b => a.1 < b.1 ∨ a.1 = b.1 ∧ a.2 < b.2 := by
  refine ⟨(List.mergeSort_perm _ _).map _, ?_⟩
  rw [dtwYRows, List.pairwise_map]
  exact pairwise_mergeSort_key (fun x : ℕ × ℚ => x.2) (pairwise_enum_fst c)

/-- On a non-decreasing curve the sort of `dtw_y` keeps the index order. -/
theorem dtwYRows_of_sorted {c : List ℚ} (hc : c.Sorted (· ≤ ·)) :
    dtwYRows c = c.enum.map Prod.swap := by
  have hsorted : c.enum.Pairwise fun x y => x.2 ≤ y.2 := by
    rw [← List.enum_map_snd c] at hc
    exact List.pairwise_map.mp hc
  rw [dtwYRows, sortByValue, List.mergeSort_of_sorted (hsorted.imp decide_eq_true)]

/-! ## On the traces of `calculate_coverage` -/

/-- A path adds to the coverage exactly when it covers an edge the paths before it do not. -/
theorem card_lt_card_union_iff (A B : Finset (ℕ × ℕ)) : A.card < (A ∪ B).card ↔ ¬ B ⊆ A := by
  refine ⟨fun h hB => ?_, fun hB => Finset.card_lt_card (left_lt_sup.mpr hB)⟩
  rw [Finset.union_eq_left.mpr hB] at h
  exact lt_irrefl _ h

theorem coverageTrace_getD (N : ℕ) (ps : List (List ℕ)) (k : ℕ) :
    (coverageTrace N ps).getD k 0 =
      if k < ps.length then ((edgeSet (ps.take (k + 1))).card : ℚ) / (N * N : ℕ) else 0 := by
  split
  · simp [getElem?_coverageTrace N ps ‹_›]
  · rw [List.getD_eq_getElem?_getD,
      List.getElem?_eq_none (by simp only [length_coverageTrace]; omega), Option.getD_none]

/-- The trace of `calculate_coverage` goes up from `j` to `j + 1` exactly when the path
`p_{j+1}` covers an edge that `p₀, …, p_j` do not. -/
theorem coverageTrace_getD_lt_iff {N : ℕ} (hN : 0 < N) (ps : List (List ℕ)) (j : ℕ) :
    (coverageTrace N ps).getD j 0 < (coverageTrace N ps).getD (j + 1) 0 ↔
      ¬ edgeSet [ps.getD (j + 1) []] ⊆ edgeSet (ps.take (j + 1)) := by
  have hNN : (0 : ℚ) < (N * N : ℕ) := by positivity
  rw [coverageTrace_getD, coverageTrace_getD]
  by_cases hj : j + 1 < ps.length
  · have htake : ps.take (j + 1 + 1) = ps.take (j + 1) ++ [ps.getD (j + 1) []] := by
      rw [List.take_succ, List.getElem?_eq_getElem hj, List.getD_eq_getElem?_getD,
        List.getElem?_eq_getElem hj]
      rfl
    rw [if_pos (by omega), if_pos hj, div_lt_div_iff_of_pos_right hNN, Nat.cast_lt, htake,
      edgeSet_append, card_lt_card_union_iff]
  · have hnil : ps.getD (j + 1) [] = [] := by
      simp [List.getElem?_eq_none (by omega : ps.length ≤ j + 1)]
    have hempty : edgeSet [[]] = ∅ := by simp [edgeSet_singleton, pathEdges]
    rw [if_neg hj, hnil, hempty]
    simp only [Finset.empty_subset, not_true_eq_false, iff_false, not_lt]
    split <;> positivity

variable {Seq File : Type}

/-- On the trace that `calculate_coverage` returns for in-range decoded paths `p₀, …, pₘ₋₁`,
the sort of `dtw_y` keeps the points in index order, and the running count of
`dtw_normalized_increases` at `i` is the number of paths among `p₁, …, pᵢ` that cover an edge
that the paths before them do not. -/
theorem dtw_calculateCoverage (viterbi : Seq → List ℕ) (N : ℕ) (hN : 0 < N)
    (files : List File) (load : File → List Seq)
    (hrange : PathsBelow N (decodedPaths viterbi files load)) :
    ∃ bm tr, calculateCoverage viterbi N files load = .ok (bm, tr) ∧
      dtwYRows tr = tr.enum.map Prod.swap ∧
      ∀ i, increasesUpTo tr i = ((List.range i).filter fun j =>
        ¬ edgeSet [(decodedPaths viterbi files load).getD (j + 1) []] ⊆
          edgeSet ((decodedPaths viterbi files load).take (j + 1))).length := by
  refine ⟨_, _, calculateCoverage_eq hN hrange, dtwYRows_of_sorted (coverageTrace_sorted _ _),
    fun i => congrArg List.length (List.filter_congr fun j _ =>
      decide_eq_decide.mpr (coverageTrace_getD_lt_iff hN _ j))⟩

theorem dtw_calculateCoverage_one_file :
    0 < 2 ∧ PathsBelow 2 (decodedPaths id [()] fun _ => [[0, 1], [0, 1], [1, 0]]) ∧
      ∃ bm tr, calculateCoverage id 2 [()] (fun _ => [[0, 1], [0, 1], [1, 0]]) = .ok (bm, tr) ∧
        dtwYRows tr = tr.enum.map Prod.swap := by
  have hrange : PathsBelow 2 (decodedPaths id [()] fun _ => [[0, 1], [0, 1], [1, 0]]) := by
    simp [PathsBelow, decodedPaths]
  obtain ⟨bm, tr, h, hy, -⟩ := dtw_calculateCoverage id 2 (by decide) [()] _ hrange
  exact ⟨by decide, hrange, bm, tr, h, hy⟩

end HmmCoverage
