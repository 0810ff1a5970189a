import HmmCoverage.Coverage.Bitmap
import Mathlib.Data.Finset.Dedup
import Mathlib.Data.List.Sort
import Mathlib.Algebra.Order.Field.Rat
import Mathlib.Algebra.Order.Field.Basic
import Mathlib.Tactic.Positivity

/-!
# Coverage over time

`calculate_coverage` decodes every sequence of a corpus, file after file, ORs each
sequence's coverage map into a running map and appends the covered fraction of the
`N * N` possible edges to a trace.  The loop is a state machine over
`(coverage_summarized, cov_over_time)`; its invariant, `coverageState`, says that after
the paths `done` the running map is the 0/1 list of the positions of the edges of `done`
and the trace lists, for every prefix of `done`, the fraction of edges that prefix covers.

`calculate_coverage_single`, the entry point of the live fuzzing hook, returns the map of
the first sequence of a batch and is compared with the corpus loop at the end.
-/

namespace HmmCoverage

variable {Seq File : Type}

/-! ## The modelled loop -/

/-- One pass of the inner loop of `calculate_coverage`: decode `seq`, OR its coverage map
into `coverage_summarized` and append the covered fraction to `cov_over_time`. -/
def coverageStep (viterbi : Seq → List ℕ) (noComponents : ℕ)
    (state : List ℕ × List ℚ) (seq : Seq) : Except PyError (List ℕ × List ℚ) := do
  let coverage ← generateCoverageMap (viterbi seq) noComponents
  let coverageSummarized := logicalOr state.1 coverage
  let fraction ← pyDiv (coverageSummarized.sum : ℚ) (noComponents * noComponents : ℕ)
  pure (coverageSummarized, state.2 ++ [fraction])

/-- `calculate_coverage(model, no_components, files, preprocessed_data_folder)`, where
`viterbi` is `model.viterbi` and `load file` is what
`joblib.load(os.path.join(preprocessed_data_folder, file))` returns. -/
def calculateCoverage (viterbi : Seq → List ℕ) (noComponents : ℕ) (files : List File)
    (load : File → List Seq) : Except PyError (List ℕ × List ℚ) :=
  files.foldlM (fun state file => (load file).foldlM (coverageStep viterbi noComponents) state)
    (List.replicate (noComponents * noComponents) 0, [])

/-- `calculate_coverage_single(model, no_components, preprocessed_data)`: the coverage map of
the first sequence of the batch. -/
def calculateCoverageSingle (viterbi : Seq → List ℕ) (noComponents : ℕ)
    (preprocessedData : List Seq) : Except PyError (List ℕ) := do
  let seq ← getItem preprocessedData 0
  generateCoverageMap (viterbi seq) noComponents

/-- The decoded paths of a corpus, file after file and sequence after sequence. -/
def decodedPaths (viterbi : Seq → List ℕ) (files : List File) (load : File → List Seq) :
    List (List ℕ) :=
  (files.flatMap load).map viterbi

/-! ## Covered edges of a list of paths -/

/-- The edges `E(p₀) ∪ … ∪ E(pₘ₋₁)` traversed by the paths. -/
def edgeSet (paths : List (List ℕ)) : Finset (ℕ × ℕ) :=
  (paths.flatMap pathEdges).toFinset

theorem edgeSet_append (ps qs : List (List ℕ)) : edgeSet (ps ++ qs) = edgeSet ps ∪ edgeSet qs := by
  simp [edgeSet, List.toFinset_append]

@[simp] theorem edgeSet_nil : edgeSet [] = ∅ := rfl

theorem edgeSet_singleton (p : List ℕ) : edgeSet [p] = (pathEdges p).toFinset := by
  simp [edgeSet]

theorem edgeSet_mono {ps qs : List (List ℕ)} (h : ps ⊆ qs) : edgeSet ps ⊆ edgeSet qs := by
  intro e he
  simp only [edgeSet, List.mem_toFinset, List.mem_flatMap] at he ⊢
  obtain ⟨p, hp, hep⟩ := he
  exact ⟨p, h hp, hep⟩

theorem edgeSet_perm {ps qs : List (List ℕ)} (h : ps.Perm qs) : edgeSet ps = edgeSet qs :=
  List.toFinset_eq_of_perm _ _ (h.flatMap_right pathEdges)

section InRange

variable {N : ℕ} {ps : List (List ℕ)}

/-- Every state of every path is below `N`. -/
def PathsBelow (N : ℕ) (ps : List (List ℕ)) : Prop :=
  ∀ p ∈ ps, ∀ s ∈ p, s < N

theorem edgeSet_lt (hps : PathsBelow N ps) {e : ℕ × ℕ} (he : e ∈ edgeSet ps) :
    e.1 < N ∧ e.2 < N := by
  simp only [edgeSet, List.mem_toFinset, List.mem_flatMap] at he
  obtain ⟨p, hp, hep⟩ := he
  have hmem := mem_of_mem_pathEdges hep
  exact ⟨hps p hp _ hmem.1, hps p hp _ hmem.2⟩

/-- Distinct edges of in-range paths have distinct positions, so the covered positions are
as many as the covered edges. -/
theorem card_image_edgeIndex (hps : PathsBelow N ps) :
    ((edgeSet ps).image (edgeIndex N)).card = (edgeSet ps).card :=
  Finset.card_image_of_injOn fun _ he _ he' h =>
    edgeIndex_inj (edgeSet_lt hps he).2 (edgeSet_lt hps he').2 h

theorem image_edgeIndex_lt (hps : PathsBelow N ps) :
    ∀ j ∈ (edgeSet ps).image (edgeIndex N), j < N * N := by
  simp only [Finset.mem_image]
  rintro _ ⟨e, he, rfl⟩
  exact edgeIndex_lt (edgeSet_lt hps he).1 (edgeSet_lt hps he).2

theorem card_edgeSet_le (hps : PathsBelow N ps) : (edgeSet ps).card ≤ N * N := by
  rw [← card_image_edgeIndex hps]
  calc ((edgeSet ps).image (edgeIndex N)).card ≤ (Finset.range (N * N)).card :=
        Finset.card_le_card fun j hj => Finset.mem_range.mpr (image_edgeIndex_lt hps j hj)
    _ = N * N := Finset.card_range _

end InRange

/-! ## The trace, and the loop invariant -/

/-- The trace the loop should build: entry `k` is the fraction of the `N * N` possible edges
that the first `k + 1` paths cover. -/
def coverageTrace (N : ℕ) (ps : List (List ℕ)) : List ℚ :=
  (List.range ps.length).map fun k => ((edgeSet (ps.take (k + 1))).card : ℚ) / (N * N : ℕ)

/-- The loop state `(coverage_summarized, cov_over_time)` after the paths `done`. -/
def coverageState (N : ℕ) (done : List (List ℕ)) : List ℕ × List ℚ :=
  (bitmapOf (N * N) ((edgeSet done).image (edgeIndex N)), coverageTrace N done)

@[simp] theorem length_coverageTrace (N : ℕ) (ps : List (List ℕ)) :
    (coverageTrace N ps).length = ps.length := by
  simp [coverageTrace]

theorem getElem?_coverageTrace (N : ℕ) (ps : List (List ℕ)) {k : ℕ} (hk : k < ps.length) :
    (coverageTrace N ps)[k]? = some (((edgeSet (ps.take (k + 1))).card : ℚ) / (N * N : ℕ)) := by
  simp [coverageTrace, hk]

theorem coverageTrace_append_singleton (N : ℕ) (ps : List (List ℕ)) (p : List ℕ) :
    coverageTrace N (ps ++ [p]) =
      coverageTrace N ps ++ [((edgeSet (ps ++ [p])).card : ℚ) / (N * N : ℕ)] := by
  simp only [coverageTrace, List.length_append, List.length_singleton, List.range_succ,
    List.map_append, List.map_singleton, List.take_of_length_le (by simp : (ps ++ [p]).length ≤ ps.length + 1)]
  congr 1
  apply List.map_congr_left
  intro k hk
  rw [List.take_append_of_le_length (by simp at hk; omega)]

/-- Covering more paths never lowers the trace. -/
theorem coverageTrace_sorted (N : ℕ) (ps : List (List ℕ)) : (coverageTrace N ps).Sorted (· ≤ ·) := by
  refine (List.sorted_le_range ps.length).map _ fun k k' hkk' => ?_
  have hsub : edgeSet (ps.take (k + 1)) ⊆ edgeSet (ps.take (k' + 1)) :=
    edgeSet_mono (List.take_subset_take_left ps (by omega))
  exact div_le_div_of_nonneg_right (by exact_mod_cast Finset.card_le_card hsub) (by positivity)

theorem coverageTrace_mem_unit {N : ℕ} (hN : 0 < N) {ps : List (List ℕ)} (hps : PathsBelow N ps) :
    ∀ x ∈ coverageTrace N ps, 0 ≤ x ∧ x ≤ 1 := by
  simp only [coverageTrace, List.mem_map, List.mem_range]
  rintro _ ⟨k, -, rfl⟩
  have hNN : (0 : ℚ) < (N * N : ℕ) := by positivity
  have hle : (edgeSet (ps.take (k + 1))).card ≤ N * N :=
    card_edgeSet_le fun p hp => hps p (List.mem_of_mem_take hp)
  exact ⟨div_nonneg (Nat.cast_nonneg _) hNN.le, (div_le_one hNN).mpr (by exact_mod_cast hle)⟩

theorem getLast?_coverageTrace (N : ℕ) (ps : List (List ℕ)) :
    (coverageTrace N ps).getLast? =
      if ps = [] then none else some (((edgeSet ps).card : ℚ) / (N * N : ℕ)) := by
  rcases List.eq_nil_or_concat ps with rfl | ⟨qs, p, rfl⟩
  · rfl
  · simp [coverageTrace_append_singleton, List.getLast?_concat]

section Run

variable {viterbi : Seq → List ℕ} {N : ℕ}

/-- One pass of the inner loop extends the invariant by the decoded path of `seq`. -/
theorem coverageStep_spec (hN : 0 < N) {done : List (List ℕ)} {seq : Seq}
    (hrange : PathsBelow N (done ++ [viterbi seq])) :
    coverageStep viterbi N (coverageState N done) seq =
      .ok (coverageState N (done ++ [viterbi seq])) := by
  have hp : ∀ s ∈ viterbi seq, s < N := hrange _ (by simp)
  have hNN : ((N * N : ℕ) : ℚ) ≠ 0 := by positivity
  have hunion : (edgeSet done).image (edgeIndex N) ∪ (pathEdges (viterbi seq)).toFinset.image
      (edgeIndex N) = (edgeSet (done ++ [viterbi seq])).image (edgeIndex N) := by
    rw [edgeSet_append, edgeSet_singleton, Finset.image_union]
  simp only [coverageStep, coverageState, generateCoverageMap_spec hp, ok_bind,
    logicalOr_bitmapOf, hunion, sum_bitmapOf (image_edgeIndex_lt hrange),
    card_image_edgeIndex hrange, pyDiv_of_ne_zero hNN, coverageTrace_append_singleton, pure_eq_ok]

/-- A run of the inner loop over `seqs` extends the invariant by their decoded paths. -/
theorem foldlM_coverageStep (hN : 0 < N) (seqs : List Seq) (done : List (List ℕ))
    (hrange : PathsBelow N (done ++ seqs.map viterbi)) :
    seqs.foldlM (coverageStep viterbi N) (coverageState N done) =
      .ok (coverageState N (done ++ seqs.map viterbi)) := by
  induction seqs generalizing done with
  | nil => simp
  | cons seq seqs ih =>
    have hstep : PathsBelow N (done ++ [viterbi seq]) := fun p hp =>
      hrange p (by simp only [List.mem_append, List.mem_singleton, List.map_cons, List.mem_cons] at hp ⊢; tauto)
    rw [List.foldlM_cons, coverageStep_spec hN hstep, ok_bind, ih _ (by simpa using hrange)]
    simp

/-- On in-range paths, `calculate_coverage` returns the invariant's state for all the
decoded paths of the corpus. -/
theorem calculateCoverage_eq (hN : 0 < N) {files : List File} {load : File → List Seq}
    (hrange : PathsBelow N (decodedPaths viterbi files load)) :
    calculateCoverage viterbi N files load = .ok (coverageState N (decodedPaths viterbi files load)) := by
  have h0 : (List.replicate (N * N) 0, ([] : List ℚ)) = coverageState N [] := by
    simp [coverageState, coverageTrace, bitmapOf_empty]
  rw [calculateCoverage, ← foldlM_flatMap, h0,
    foldlM_coverageStep hN _ _ (by simpa [decodedPaths] using hrange)]
  simp [decodedPaths]

end Run

/-! ## What `calculate_coverage` returns -/

/-- For in-range decoded paths `p₀, …, pₘ₋₁`, `calculate_coverage` returns a trace of length
`m` whose entry `k` is `|E(p₀) ∪ … ∪ E(pₖ)| / N²` and the 0/1 map of the positions
`s * N + d` of all covered edges; the trace is non-decreasing and lies in `[0, 1]`, and any
corpus whose decoded paths are a permutation of these yields the same map and the same
last entry. -/
theorem calculateCoverage_correct (viterbi : Seq → List ℕ) (N : ℕ) (hN : 0 < N)
    (files : List File) (load : File → List Seq)
    (hrange : PathsBelow N (decodedPaths viterbi files load)) :
    let ps := decodedPaths viterbi files load
    ∃ bm tr, calculateCoverage viterbi N files load = .ok (bm, tr) ∧
      tr.length = ps.length ∧
      (∀ k < ps.length, tr[k]? = some (((edgeSet (ps.take (k + 1))).card : ℚ) / (N * N : ℕ))) ∧
      bm.length = N * N ∧
      (∀ j, bm.getD j 0 = if j ∈ (edgeSet ps).image (edgeIndex N) then 1 else 0) ∧
      tr.Sorted (· ≤ ·) ∧
      (∀ x ∈ tr, 0 ≤ x ∧ x ≤ 1) ∧
      ∀ (viterbi' : Seq → List ℕ) (files' : List File) (load' : File → List Seq),
        (decodedPaths viterbi' files' load').Perm ps →
        ∃ tr', calculateCoverage viterbi' N files' load' = .ok (bm, tr') ∧
          tr'.getLast? = tr.getLast? := by
  intro ps
  refine ⟨_, _, calculateCoverage_eq hN hrange, length_coverageTrace N ps,
    fun k hk => getElem?_coverageTrace N ps hk, length_bitmapOf _ _, fun j => ?_,
    coverageTrace_sorted N ps, coverageTrace_mem_unit hN hrange, ?_⟩
  · rw [getD_bitmapOf]
    by_cases hj : j ∈ (edgeSet ps).image (edgeIndex N)
    · simp [hj, image_edgeIndex_lt hrange j hj]
    · simp [hj]
  · intro viterbi' files' load' hperm
    have hrange' : PathsBelow N (decodedPaths viterbi' files' load') := fun p hp =>
      hrange p (hperm.mem_iff.mp hp)
    refine ⟨_, by rw [calculateCoverage_eq hN hrange', coverageState, edgeSet_perm hperm], ?_⟩
    have hnil : decodedPaths viterbi' files' load' = [] ↔ ps = [] :=
      ⟨fun h => (h ▸ hperm).symm.eq_nil, fun h => (h ▸ hperm).eq_nil⟩
    simp only [getLast?_coverageTrace, edgeSet_perm hperm, hnil]

theorem calculateCoverage_correct_one_file :
    0 < 2 ∧ PathsBelow 2 (decodedPaths id [()] fun _ => [[0, 1, 1], [1, 0]]) ∧
      ∃ bm tr, calculateCoverage id 2 [()] (fun _ => [[0, 1, 1], [1, 0]]) = .ok (bm, tr) := by
  have hrange : PathsBelow 2 (decodedPaths id [()] fun _ => [[0, 1, 1], [1, 0]]) := by
    simp [PathsBelow, decodedPaths]
  obtain ⟨bm, tr, h, -⟩ := calculateCoverage_correct id 2 (by decide) [()] _ hrange
  exact ⟨by decide, hrange, bm, tr, h⟩

/-- For a non-empty batch whose first sequence decodes to an in-range path `p`,
`calculate_coverage_single` returns the 0/1 list of length `N²` with ones exactly at the
positions `p[i] * N + p[i + 1]`; it has at most `len(p) - 1` ones, distinct steps never
share a position, and it is the final map of `calculate_coverage` on the corpus `[s₀]`. -/
theorem calculateCoverageSingle_correct (viterbi : Seq → List ℕ) (N : ℕ) (hN : 0 < N)
    (s₀ : Seq) (rest : List Seq) (hpath : ∀ s ∈ viterbi s₀, s < N) :
    ∃ bm, calculateCoverageSingle viterbi N (s₀ :: rest) = .ok bm ∧
      bm.length = N * N ∧ (∀ x ∈ bm, x = 0 ∨ x = 1) ∧
      (∀ j, bm.getD j 0 = 1 ↔ ∃ i, i + 1 < (viterbi s₀).length ∧
        j = (viterbi s₀).getD i 0 * N + (viterbi s₀).getD (i + 1) 0) ∧
      bm.count 1 ≤ (viterbi s₀).length - 1 ∧
      (∀ e ∈ pathEdges (viterbi s₀), ∀ e' ∈ pathEdges (viterbi s₀), e ≠ e' →
        edgeIndex N e ≠ edgeIndex N e') ∧
      ∃ tr, calculateCoverage viterbi N [()] (fun _ => [s₀]) = .ok (bm, tr) := by
  set p := viterbi s₀
  have hlt : ∀ j ∈ (pathEdges p).toFinset.image (edgeIndex N), j < N * N := by
    simp only [Finset.mem_image, List.mem_toFinset]
    rintro _ ⟨e, he, rfl⟩
    exact edgeIndex_lt_of_mem_pathEdges hpath he
  have hinj : ∀ e ∈ pathEdges p, ∀ e' ∈ pathEdges p, edgeIndex N e = edgeIndex N e' → e = e' :=
    fun e he e' he' =>
      edgeIndex_inj (hpath _ (mem_of_mem_pathEdges he).2) (hpath _ (mem_of_mem_pathEdges he').2)
  refine ⟨bitmapOf (N * N) ((pathEdges p).toFinset.image (edgeIndex N)),
    by simp [calculateCoverageSingle, generateCoverageMap_spec hpath, p], length_bitmapOf _ _, fun x hx => mem_bitmapOf hx, fun j => ?_, ?_,
    fun e he e' he' hne h => hne (hinj e he e' he' h), ?_⟩
  · rw [getD_bitmapOf_eq_one, ← mem_image_pathEdges]
    exact ⟨And.right, fun hj => ⟨hlt j hj, hj⟩⟩
  · rw [count_one_eq_sum fun x hx => mem_bitmapOf hx, sum_bitmapOf hlt,
      Finset.card_image_of_injOn fun e he e' he' =>
        hinj e (List.mem_toFinset.mp he) e' (List.mem_toFinset.mp he'),
      ← length_pathEdges]
    exact List.toFinset_card_le _
  · have hrange : PathsBelow N (decodedPaths viterbi [()] fun _ => [s₀]) := by
      simpa [decodedPaths, PathsBelow] using hpath
    refine ⟨coverageTrace N [p], ?_⟩
    rw [calculateCoverage_eq hN hrange]
    simp [coverageState, decodedPaths, edgeSet_singleton, p]

theorem calculateCoverageSingle_correct_batch :
    0 < 3 ∧ (∀ s ∈ [0, 1, 2, 1], s < 3) ∧
      ∃ bm, calculateCoverageSingle id 3 [[0, 1, 2, 1], [2]] = .ok bm := by
  have hpath : ∀ s ∈ [0, 1, 2, 1], s < 3 := by decide
  obtain ⟨bm, h, -⟩ := calculateCoverageSingle_correct id 3 (by decide) [0, 1, 2, 1] [[2]] hpath
  exact ⟨by decide, hpath, bm, h⟩

end HmmCoverage
