import HmmCoverage.Measures.Normalize
import Mathlib.Algebra.Order.Ring.Cast
import Mathlib.Data.Prod.Lex

/-!
# Candidate matches and the order the greedy loop meets them in

`calculate_coverage_similarity` pairs every fuzzer event `a` with every HMM event `b` such
that `|a - b| ≤ max_distance`, walking `indices_hmm` with an early `continue` while `b` is
too far below `a` and an early `break` once `b` is too far above it.  It then sorts the
candidates by distance with Python's stable sort.

Both steps are compared here with the plain description of spec §4.3: the pruned loop
produces exactly the in-window pairs in `(a, b)` order, and the stable sort orders them by
`(|a - b|, a, b)`.
-/

namespace HmmCoverage

/-! ## The candidate loop -/

/-- A candidate match `(current_fuzzer, current_hmm, abs(current_fuzzer - current_hmm))`,
which the greedy loop unpacks as `index_fuzzer, index_hmm, dist`. -/
structure Candidate where
  indexFuzzer : ℕ
  indexHmm : ℕ
  dist : ℕ
  deriving DecidableEq, Repr, Inhabited

/-- `abs(current_fuzzer - current_hmm)`. -/
def indexDistance (a b : ℕ) : ℕ := ((a : ℤ) - b).natAbs

/-- The inner loop of the candidate generation for one `current_fuzzer`: `continue` while
`current_fuzzer > current_hmm + max_distance`, `break` at the first
`current_fuzzer + max_distance < current_hmm`, and keep every other `current_hmm`. -/
def hmmCandidates (currentFuzzer : ℕ) (maxDistance : ℚ) : List ℕ → List Candidate
  | [] => []
  | currentHmm :: rest =>
    if (currentFuzzer : ℚ) > currentHmm + maxDistance then
      hmmCandidates currentFuzzer maxDistance rest
    else if (currentFuzzer : ℚ) + maxDistance < currentHmm then []
    else ⟨currentFuzzer, currentHmm, indexDistance currentFuzzer currentHmm⟩ ::
      hmmCandidates currentFuzzer maxDistance rest

/-- `possible_matches`, built by the two nested loops. -/
def possibleMatches (indicesFuzzer indicesHmm : List ℕ) (maxDistance : ℚ) : List Candidate :=
  indicesFuzzer.flatMap fun currentFuzzer => hmmCandidates currentFuzzer maxDistance indicesHmm

/-- `sorted(possible_matches, key=lambda x: x[2])`.  Python's sort is stable, and so is merge
sort. -/
def sortMatches (possibleMatches : List Candidate) : List Candidate :=
  possibleMatches.mergeSort fun x y => x.dist ≤ y.dist

/-! ## The window of spec §4.3 -/

/-- Every pair of `E_A × E_B` with `|a - b| ≤ w`, in `(a, b)` order (spec §4.3, step 3). -/
def windowCandidates (indicesFuzzer indicesHmm : List ℕ) (maxDistance : ℚ) : List Candidate :=
  indicesFuzzer.flatMap fun a =>
    (indicesHmm.filter fun b => (indexDistance a b : ℚ) ≤ maxDistance).map fun b =>
      ⟨a, b, indexDistance a b⟩

theorem indexDistance_le_iff {a b : ℕ} {w : ℚ} :
    (indexDistance a b : ℚ) ≤ w ↔ (a : ℚ) ≤ b + w ∧ (b : ℚ) ≤ a + w := by
  rw [indexDistance, Nat.cast_natAbs, Int.cast_abs, Int.cast_sub, Int.cast_natCast,
    Int.cast_natCast, abs_sub_le_iff]
  constructor <;> rintro ⟨h1, h2⟩ <;> constructor <;> linarith

/-- On an ascending `indices_hmm`, neither the `continue` nor the `break` changes which
pairs are produced. -/
theorem hmmCandidates_eq (a : ℕ) (w : ℚ) {hs : List ℕ} (hsorted : hs.Sorted (· < ·)) :
    hmmCandidates a w hs =
      (hs.filter fun b => (indexDistance a b : ℚ) ≤ w).map fun b => ⟨a, b, indexDistance a b⟩ := by
  induction hs with
  | nil => rfl
  | cons b rest ih =>
    obtain ⟨hlt, hrest⟩ := List.sorted_cons.mp hsorted
    by_cases hbelow : (a : ℚ) > b + w
    · have hout : ¬ (indexDistance a b : ℚ) ≤ w := fun h => by
        linarith [(indexDistance_le_iff.mp h).1]
      simp [hmmCandidates, hbelow, hout, ih hrest]
    · by_cases habove : (a : ℚ) + w < b
      · have hout : ∀ b' ∈ b :: rest, ¬ (indexDistance a b' : ℚ) ≤ w := fun b' hb' h => by
          have hbb' : (b : ℚ) ≤ b' := by
            rcases List.mem_cons.mp hb' with rfl | hb'
            · exact le_rfl
            · exact_mod_cast (hlt b' hb').le
          linarith [(indexDistance_le_iff.mp h).2]
        rw [List.filter_eq_nil_iff.mpr fun b' hb' => by simpa using hout b' hb']
        simp [hmmCandidates, hbelow, habove]
      · have hin : (indexDistance a b : ℚ) ≤ w := indexDistance_le_iff.mpr ⟨by linarith, by linarith⟩
        simp [hmmCandidates, hbelow, habove, hin, ih hrest]

/-- The pruned candidate loop produces exactly the in-window pairs, in `(a, b)` order. -/
theorem possibleMatches_eq (indicesFuzzer : List ℕ) {indicesHmm : List ℕ}
    (hsorted : indicesHmm.Sorted (· < ·)) (w : ℚ) :
    possibleMatches indicesFuzzer indicesHmm w = windowCandidates indicesFuzzer indicesHmm w := by
  simp only [possibleMatches, windowCandidates, hmmCandidates_eq _ w hsorted]

theorem mem_windowCandidates {EA EB : List ℕ} {w : ℚ} {c : Candidate} :
    c ∈ windowCandidates EA EB w ↔
      c.indexFuzzer ∈ EA ∧ c.indexHmm ∈ EB ∧ c.dist = indexDistance c.indexFuzzer c.indexHmm ∧
        (c.dist : ℚ) ≤ w := by
  obtain ⟨a, b, d⟩ := c
  simp only [windowCandidates, List.mem_flatMap, List.mem_map, List.mem_filter,
    decide_eq_true_eq, Candidate.mk.injEq]
  constructor
  · rintro ⟨a, ha, b, ⟨hb, hw⟩, rfl, rfl, rfl⟩
    exact ⟨ha, hb, rfl, hw⟩
  · rintro ⟨ha, hb, rfl, hw⟩
    exact ⟨a, ha, b, ⟨hb, hw⟩, rfl, rfl, rfl⟩

/-! ## The order of the sorted candidates -/

/-- The order of spec §4.3, step 4: by distance, then by the fuzzer index, then by the HMM
index. -/
def matchOrder (c : Candidate) : ℕ ×ₗ ℕ ×ₗ ℕ := toLex (c.dist, toLex (c.indexFuzzer, c.indexHmm))

/-- The order of the loop that builds the candidates: by the fuzzer index, then by the HMM
index. -/
def pairOrder (c : Candidate) : ℕ ×ₗ ℕ := toLex (c.indexFuzzer, c.indexHmm)

/-- The candidates of spec §4.3 in the order `(|a - b|, a, b)`. -/
def specSortedCandidates (indicesFuzzer indicesHmm : List ℕ) (maxDistance : ℚ) :
    List Candidate :=
  (windowCandidates indicesFuzzer indicesHmm maxDistance).mergeSort fun x y =>
    matchOrder x ≤ matchOrder y

theorem matchOrder_injective : Function.Injective matchOrder := by
  rintro ⟨a, b, d⟩ ⟨a', b', d'⟩ h
  simp only [matchOrder, toLex_inj, Prod.mk.injEq] at h
  obtain ⟨rfl, rfl, rfl⟩ := h
  rfl

theorem matchOrder_lt_iff {x y : Candidate} :
    matchOrder x < matchOrder y ↔
      x.dist < y.dist ∨ x.dist = y.dist ∧
        (x.indexFuzzer < y.indexFuzzer ∨ x.indexFuzzer = y.indexFuzzer ∧ x.indexHmm < y.indexHmm) := by
  simp [matchOrder, Prod.Lex.lt_iff]

/-- `windowCandidates` lists its pairs in strictly increasing `(a, b)` order. -/
theorem windowCandidates_pairwise {EA EB : List ℕ} (hA : EA.Sorted (· < ·))
    (hB : EB.Sorted (· < ·)) (w : ℚ) :
    (windowCandidates EA EB w).Pairwise fun x y => pairOrder x < pairOrder y := by
  rw [windowCandidates, List.pairwise_flatMap]
  constructor
  · intro a _
    rw [List.pairwise_map]
    exact (hB.filter _).imp fun hbb' => by simpa [pairOrder, Prod.Lex.lt_iff] using hbb'
  · refine hA.imp fun {a a'} haa' => ?_
    simp only [List.mem_map]
    rintro _ ⟨b, -, rfl⟩ _ ⟨b', -, rfl⟩
    exact (Prod.Lex.lt_iff (a, b) (a', b')).mpr (Or.inl haa')

/-- Stability of Python's `sorted` with a key, modelled by `mergeSort` on the key order:
elements of equal key keep every relation `R` that the input list has between them in its
order. -/
theorem pairwise_mergeSort_key {α κ : Type} [LinearOrder κ] (key : α → κ) {R : α → α → Prop}
    {L : List α} (hL : L.Pairwise R) :
    (L.mergeSort fun x y => key x ≤ key y).Pairwise fun x y =>
      key x < key y ∨ key x = key y ∧ R x y := by
  have htrans : ∀ x y z : α, decide (key x ≤ key y) → decide (key y ≤ key z) →
      decide (key x ≤ key z) := by
    simp only [decide_eq_true_eq]
    exact fun _ _ _ => le_trans
  have htotal : ∀ x y : α, (decide (key x ≤ key y) || decide (key y ≤ key x)) := by
    simp only [Bool.or_eq_true, decide_eq_true_eq]
    exact fun _ _ => le_total _ _
  -- Within one key class the sort keeps the input order.
  have hclass : ∀ k, (L.mergeSort fun x y => key x ≤ key y).filter (fun c => key c = k) =
      L.filter (fun c => key c = k) := by
    intro k
    have hsame : (L.filter fun c => key c = k).Pairwise fun x y => decide (key x ≤ key y) :=
      List.pairwise_of_forall_mem_list fun x hx y hy => by
        have hxk := of_decide_eq_true (List.mem_filter.mp hx).2
        have hyk := of_decide_eq_true (List.mem_filter.mp hy).2
        exact decide_eq_true (hxk.trans hyk.symm).le
    have hsub : List.Sublist (L.filter fun c => key c = k)
        ((L.mergeSort fun x y => key x ≤ key y).filter fun c => key c = k) := by
      simpa [List.filter_filter] using
        (List.sublist_mergeSort htrans htotal hsame (List.filter_sublist L)).filter
          fun c => key c = k
    exact (hsub.eq_of_length ((List.mergeSort_perm L _).filter _).length_eq.symm).symm
  rw [List.pairwise_iff_forall_sublist]
  intro x y hxy
  have hd : key x ≤ key y := by
    simpa using List.pairwise_iff_forall_sublist.mp (List.sorted_mergeSort htrans htotal L) hxy
  rcases hd.lt_or_eq with hlt | heq
  · exact .inl hlt
  · have hxy' : List.Sublist [x, y] (L.filter (fun c => key c = key x)) := by
      rw [← hclass]
      simpa [heq] using hxy.filter fun c => key c = key x
    exact .inr ⟨heq, List.pairwise_iff_forall_sublist.mp (hL.sublist (List.filter_sublist L)) hxy'⟩

/-- Stability: sorting by distance a list in strictly increasing `(a, b)` order yields the
strictly increasing `(distance, a, b)` order. -/
theorem sortMatches_pairwise {L : List Candidate}
    (hL : L.Pairwise fun x y => pairOrder x < pairOrder y) :
    (sortMatches L).Pairwise fun x y => matchOrder x < matchOrder y :=
  (pairwise_mergeSort_key Candidate.dist hL).imp fun {x y} h =>
    matchOrder_lt_iff.mpr (h.imp_right fun h =>
      ⟨h.1, (Prod.Lex.lt_iff (x.indexFuzzer, x.indexHmm) (y.indexFuzzer, y.indexHmm)).mp h.2⟩)

/-- The code's candidate list, once sorted, is the candidate list of spec §4.3 in its
order. -/
theorem sortMatches_possibleMatches {EA EB : List ℕ} (hA : EA.Sorted (· < ·))
    (hB : EB.Sorted (· < ·)) (w : ℚ) :
    sortMatches (possibleMatches EA EB w) = specSortedCandidates EA EB w := by
  haveI : IsAntisymm Candidate fun x y => matchOrder x ≤ matchOrder y :=
    ⟨fun _ _ h1 h2 => matchOrder_injective (le_antisymm h1 h2)⟩
  have htrans : ∀ x y z : Candidate, decide (matchOrder x ≤ matchOrder y) →
      decide (matchOrder y ≤ matchOrder z) → decide (matchOrder x ≤ matchOrder z) := by
    simp only [decide_eq_true_eq]
    exact fun _ _ _ => le_trans
  have htotal : ∀ x y : Candidate,
      (decide (matchOrder x ≤ matchOrder y) || decide (matchOrder y ≤ matchOrder x)) := by
    simp only [Bool.or_eq_true, decide_eq_true_eq]
    exact fun _ _ => le_total _ _
  have hcode : (sortMatches (windowCandidates EA EB w)).Sorted fun x y => matchOrder x ≤ matchOrder y :=
    (sortMatches_pairwise (windowCandidates_pairwise hA hB w)).imp le_of_lt
  have hspec : (specSortedCandidates EA EB w).Sorted fun x y => matchOrder x ≤ matchOrder y := by
    simpa using List.sorted_mergeSort htrans htotal (windowCandidates EA EB w)
  rw [possibleMatches_eq EA hB]
  exact List.eq_of_perm_of_sorted
    ((List.mergeSort_perm _ _).trans (List.mergeSort_perm _ _).symm) hcode hspec

/-- The spec's candidate list is strictly increasing in the order `(|a - b|, a, b)`. -/
theorem specSortedCandidates_pairwise {EA EB : List ℕ} (hA : EA.Sorted (· < ·))
    (hB : EB.Sorted (· < ·)) (w : ℚ) :
    (specSortedCandidates EA EB w).Pairwise fun x y => matchOrder x < matchOrder y := by
  rw [← sortMatches_possibleMatches hA hB, possibleMatches_eq EA hB]
  exact sortMatches_pairwise (windowCandidates_pairwise hA hB w)

/-- A candidate with its two endpoints exchanged. -/
def Candidate.swap (c : Candidate) : Candidate := ⟨c.indexHmm, c.indexFuzzer, c.dist⟩

@[simp] theorem Candidate.swap_swap (c : Candidate) : c.swap.swap = c := rfl

theorem indexDistance_comm (a b : ℕ) : indexDistance a b = indexDistance b a := by
  simp only [indexDistance]
  rw [← Int.natAbs_neg, neg_sub]

theorem indexDistance_eq_zero {a b : ℕ} : indexDistance a b = 0 ↔ a = b := by
  simp [indexDistance, Int.natAbs_eq_zero, sub_eq_zero]

theorem mem_windowCandidates_swap {EA EB : List ℕ} {w : ℚ} {c : Candidate} :
    c.swap ∈ windowCandidates EB EA w ↔ c ∈ windowCandidates EA EB w := by
  simp only [mem_windowCandidates, Candidate.swap, indexDistance_comm c.indexHmm c.indexFuzzer]
  tauto

end HmmCoverage
