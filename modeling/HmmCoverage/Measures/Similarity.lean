import HmmCoverage.Measures.Greedy
import Mathlib.Algebra.Order.BigOperators.Group.List
import Mathlib.Tactic.Positivity
import Mathlib.Tactic.Ring

/-!
# The similarity score

The last part of `calculate_coverage_similarity` adds, per match `(a, b, d)`, the squared
normalised offset `((a - b) / max_distance) ** 2` and the squared gradient difference, adds `2`
per unmatched event, and divides by twice the number of events.  With the matching facts of
the previous modules this gives the score's range, when it is `0`, its symmetry in the two
curves, and the one input class on which the division is by zero.
-/

namespace HmmCoverage

/-! ## The modelled scoring -/

/-- One pass of the loop over `matches`:
`score += ((index_fuzzer - index_hmm) / max_distance) ** 2 +
(gradient_fuzzer[index_fuzzer] - gradient_hmm[index_hmm]) ** 2`. -/
def addMatchScore (inc : Increases) (maxDistance : ℚ) (score : ℚ) (c : Candidate) :
    Except PyError ℚ := do
  let x ← pyDiv ((c.indexFuzzer : ℚ) - c.indexHmm) maxDistance
  pure (score + (x ^ 2 + (inc.gradientFuzzer.getD c.indexFuzzer 0 - inc.gradientHmm.getD c.indexHmm 0) ^ 2))

/-- The scoring loops of `calculate_coverage_similarity` and the final division by
`2 * number_indices`. -/
def coverageScore (inc : Increases) (maxDistance : ℚ) (m : Matching) : Except PyError ℚ := do
  let numberIndices := inc.indicesFuzzer.length + inc.indicesHmm.length
  let score ← m.matchList.foldlM (addMatchScore inc maxDistance) 0
  let score := m.unmatchedFuzzer.foldl (fun score _ => score + 2) score
  let score := m.unmatchedHmm.foldl (fun score _ => score + 2) score
  pyDiv score (2 * numberIndices : ℕ)

/-- `calculate_coverage_similarity(fuzzer, hmm, max_distance=5)`; its `print` calls are left
out. -/
def calculateCoverageSimilarity (fuzzer hmm : List ℚ) (maxDistance : ℚ := 5) :
    Except PyError ℚ := do
  let inc ← findIncreases fuzzer hmm
  coverageScore inc maxDistance (matchIncreases inc maxDistance)

/-- What one match adds to the score. -/
def matchCost (inc : Increases) (maxDistance : ℚ) (c : Candidate) : ℚ :=
  (((c.indexFuzzer : ℚ) - c.indexHmm) / maxDistance) ^ 2 +
    (inc.gradientFuzzer.getD c.indexFuzzer 0 - inc.gradientHmm.getD c.indexHmm 0) ^ 2

/-- The score before the final division. -/
def scoreSum (inc : Increases) (maxDistance : ℚ) (m : Matching) : ℚ :=
  (m.matchList.map (matchCost inc maxDistance)).sum +
    2 * (m.unmatchedFuzzer.length + m.unmatchedHmm.length)

theorem foldl_add_map {α : Type} (f : α → ℚ) (l : List α) (a : ℚ) :
    l.foldl (fun s c => s + f c) a = a + (l.map f).sum := by
  induction l generalizing a with
  | nil => simp
  | cons c l ih => simp [ih, add_assoc]

theorem coverageScore_eq (inc : Increases) {w : ℚ} (hw : w ≠ 0) (m : Matching) :
    coverageScore inc w m =
      pyDiv (scoreSum inc w m) (2 * (inc.indicesFuzzer.length + inc.indicesHmm.length) : ℕ) := by
  have hloop := foldlM_ok (addMatchScore inc w) (fun score c => score + matchCost inc w c)
    (fun score c => by simp [addMatchScore, pyDiv_of_ne_zero hw, matchCost]) m.matchList 0
  simp only [coverageScore, hloop, ok_bind, foldl_add_map (matchCost inc w),
    foldl_add_map (fun _ => (2 : ℚ)), scoreSum,
    List.map_const', List.sum_replicate, nsmul_eq_mul, zero_add]
  congr 1
  ring

theorem calculateCoverageSimilarity_eq {A B : List ℚ} {inc : Increases}
    (h : findIncreases A B = .ok inc) {w : ℚ} (hw : w ≠ 0) :
    calculateCoverageSimilarity A B w =
      pyDiv (scoreSum inc w (matchIncreases inc w))
        (2 * (inc.indicesFuzzer.length + inc.indicesHmm.length) : ℕ) := by
  simp only [calculateCoverageSimilarity, h, ok_bind, coverageScore_eq inc hw]

/-- The subscripts `gradient_fuzzer[index_fuzzer]` and `gradient_hmm[index_hmm]` of the
scoring loop are always in range: they never raise, and reading them with a default is
exact. -/
theorem matchIncreases_subscripts_lt {A B : List ℚ} {inc : Increases}
    (h : findIncreases A B = .ok inc) (w : ℚ) :
    ∀ c ∈ (matchIncreases inc w).matchList,
      c.indexFuzzer < inc.gradientFuzzer.length ∧ c.indexHmm < inc.gradientHmm.length := by
  intro c hc
  obtain ⟨ha, hb, -⟩ := mem_windowCandidates.mp (mem_windowCandidates_of_mem_matchIncreases hc)
  exact ⟨((lt_length_of_mem_indices h).1 _ ha).1, ((lt_length_of_mem_indices h).2 _ hb).2⟩

theorem matchIncreases_subscripts_lt_of_ramp :
    findIncreases [0, 1] [0, 1] = .ok (increasesOf [1, 1] [1, 1]) ∧
      ∀ c ∈ (matchIncreases (increasesOf [1, 1] [1, 1]) 5).matchList,
        c.indexFuzzer < 2 ∧ c.indexHmm < 2 :=
  ⟨findIncreases_ramp.1, matchIncreases_subscripts_lt findIncreases_ramp.1 5⟩

/-- On two flat positive traces neither curve has a growth event, and the final division
is by zero. -/
theorem calculateCoverageSimilarity_flat_raises :
    calculateCoverageSimilarity [1, 1] [1, 1] 5 = .error .zeroDivisionError := by
  have hn : normalize [1, 1] = [1, 1] := by norm_num [normalize]
  have hg : gradient [1, 1] = .ok [0, 0] := by
    norm_num [gradient, gradientAt, List.range_succ]
  have hinc : findIncreases [1, 1] [1, 1] = .ok (increasesOf [0, 0] [0, 0]) := by
    simp [findIncreases, hn, hg]
  have hev : increasesOf [0, 0] [0, 0] = ⟨[0, 0], [0, 0], [], [], List.sorted_nil, List.sorted_nil⟩ := by
    simp [increasesOf, increaseIndices, increaseBitmap, List.range_succ]
  rw [calculateCoverageSimilarity_eq hinc (by norm_num), hev]
  simp

/-! ## Bounds on the score -/

theorem matchCost_nonneg (inc : Increases) (w : ℚ) (c : Candidate) : 0 ≤ matchCost inc w c := by
  unfold matchCost
  positivity

/-- An in-window offset contributes at most `1`. -/
theorem sq_offset_le_one {a b : ℕ} {w : ℚ} (hw : 0 < w) (h : (indexDistance a b : ℚ) ≤ w) :
    (((a : ℚ) - b) / w) ^ 2 ≤ 1 := by
  obtain ⟨h1, h2⟩ := indexDistance_le_iff.mp h
  rw [div_pow, div_le_one (by positivity)]
  exact sq_le_sq' (by linarith) (by linarith)

/-- Two gradients in `(0, 1]` differ by less than `1`. -/
theorem sq_sub_lt_one {x y : ℚ} (hx : 0 < x ∧ x ≤ 1) (hy : 0 < y ∧ y ≤ 1) : (x - y) ^ 2 < 1 := by
  rw [sq_lt_one_iff_abs_lt_one, abs_sub_lt_iff]
  constructor <;> linarith

/-- Each match costs less than the `2 + 2` its two events would cost unmatched, in fact less
than `2`. -/
theorem matchCost_lt_two {inc : Increases} (hin : inc.EventsInUnit) {w : ℚ} (hw : 0 < w)
    {c : Candidate} (hc : c ∈ (matchIncreases inc w).matchList) : matchCost inc w c < 2 := by
  obtain ⟨ha, hb, hd, hdw⟩ := mem_windowCandidates.mp (mem_windowCandidates_of_mem_matchIncreases hc)
  have hoff := sq_offset_le_one hw (hd ▸ hdw)
  have hgrad := sq_sub_lt_one (hin.1 c.indexFuzzer ha) (hin.2 c.indexHmm hb)
  unfold matchCost
  linarith only [hoff, hgrad]

/-- With some event, the final division is by a positive number. -/
theorem scoreDenominator_pos {inc : Increases}
    (hev : inc.indicesFuzzer ≠ [] ∨ inc.indicesHmm ≠ []) :
    (0 : ℚ) < (2 * (inc.indicesFuzzer.length + inc.indicesHmm.length) : ℕ) := by
  have hK : 0 < inc.indicesFuzzer.length + inc.indicesHmm.length := by
    rcases hev with h | h <;> simp [List.length_pos.mpr h]
  positivity

/-- The accounting behind the range of the score: every event is either matched, at a cost
below `2` for the two events of a match, or unmatched at a cost of exactly `2`. -/
theorem scoreSum_div_mem_unit {inc : Increases} {w : ℚ} {m : Matching}
    (hcount : 2 * m.matchList.length + m.unmatchedFuzzer.length + m.unmatchedHmm.length =
      inc.indicesFuzzer.length + inc.indicesHmm.length)
    (hcost : ∀ c ∈ m.matchList, matchCost inc w c < 2)
    (hev : inc.indicesFuzzer ≠ [] ∨ inc.indicesHmm ≠ []) :
    let s := scoreSum inc w m / (2 * (inc.indicesFuzzer.length + inc.indicesHmm.length) : ℕ)
    0 ≤ s ∧ s ≤ 1 ∧ (s = 1 ↔ m.matchList = []) := by
  intro s
  have hden := scoreDenominator_pos hev
  have hcount' : (2 * m.matchList.length + m.unmatchedFuzzer.length + m.unmatchedHmm.length : ℚ) =
      inc.indicesFuzzer.length + inc.indicesHmm.length := by exact_mod_cast hcount
  have hsum_nonneg : 0 ≤ (m.matchList.map (matchCost inc w)).sum :=
    List.sum_nonneg (List.forall_mem_map.mpr fun c _ => matchCost_nonneg inc w c)
  have hsum_le : (m.matchList.map (matchCost inc w)).sum ≤ m.matchList.length * 2 := by
    have h := List.sum_le_card_nsmul _ 2 (List.forall_mem_map.mpr fun c hc => (hcost c hc).le)
    rwa [List.length_map, nsmul_eq_mul] at h
  refine ⟨div_nonneg (by unfold scoreSum; positivity) hden.le,
    (div_le_one hden).mpr (by unfold scoreSum; push_cast; linarith only [hsum_le, hcount']), ?_⟩
  rw [div_eq_one_iff_eq hden.ne']
  unfold scoreSum
  push_cast
  constructor
  · intro h
    by_contra hne
    have hlt := List.sum_lt_sum_of_ne_nil hne (matchCost inc w) (fun _ => 2) hcost
    rw [List.map_const', List.sum_replicate, nsmul_eq_mul] at hlt
    linarith only [hlt, h, hcount']
  · intro h
    simp only [h, List.map_nil, List.sum_nil, List.length_nil, Nat.cast_zero] at hcount' ⊢
    linarith only [hcount']

/-- With at least one event, the normalised score lies in `[0, 1]`, and it is `1` exactly
when no event is matched. -/
theorem score_mem_unit {inc : Increases} (hin : inc.EventsInUnit) {w : ℚ} (hw : 0 < w)
    (hev : inc.indicesFuzzer ≠ [] ∨ inc.indicesHmm ≠ []) :
    let s := scoreSum inc w (matchIncreases inc w) /
      (2 * (inc.indicesFuzzer.length + inc.indicesHmm.length) : ℕ)
    0 ≤ s ∧ s ≤ 1 ∧ (s = 1 ↔ (matchIncreases inc w).matchList = []) :=
  scoreSum_div_mem_unit (count_matchIncreases inc w)
    (fun _ hc => matchCost_lt_two hin hw hc) hev

/-- For curves of at least two points and a positive window, the events are always
computed, and when some event exists the score lies in `[0, 1]` and is `1` exactly when the
greedy matching pairs no events. -/
theorem calculateCoverageSimilarity_mem_unit (A B : List ℚ) (w : ℚ) (hA : 2 ≤ A.length)
    (hB : 2 ≤ B.length) (hw : 0 < w) :
    ∃ inc, findIncreases A B = .ok inc ∧
      (inc.indicesFuzzer ≠ [] ∨ inc.indicesHmm ≠ [] →
        ∃ s, calculateCoverageSimilarity A B w = .ok s ∧ 0 ≤ s ∧ s ≤ 1 ∧
          (s = 1 ↔ (matchIncreases inc w).matchList = [])) := by
  obtain ⟨inc, h⟩ := findIncreases_of_length hA hB
  refine ⟨inc, h, fun hev => ⟨_, ?_, score_mem_unit (findIncreases_eventsInUnit h) hw hev⟩⟩
  rw [calculateCoverageSimilarity_eq h hw.ne', pyDiv_of_ne_zero (scoreDenominator_pos hev).ne']

theorem calculateCoverageSimilarity_mem_unit_of_ramp :
    2 ≤ [0, 1].length ∧ 2 ≤ [1, 1].length ∧ (0 : ℚ) < 5 ∧
      (increasesOf [1, 1] [0, 0]).indicesFuzzer = [0, 1] ∧
      calculateCoverageSimilarity [0, 1] [1, 1] 5 = .ok 1 := by
  obtain ⟨inc, h, hs⟩ :=
    calculateCoverageSimilarity_mem_unit [0, 1] [1, 1] 5 (by decide) (by decide) (by norm_num)
  obtain rfl : inc = increasesOf [1, 1] [0, 0] := Except.ok.inj (h.symm.trans findIncreases_ramp.2)
  obtain ⟨s, hcalc, -, -, hs1⟩ := hs (.inl (by rw [increasesOf_ramp.2.1]; simp))
  -- the flat curve has no event, so nothing is matched
  have hnone : (matchIncreases (increasesOf [1, 1] [0, 0]) 5).matchList = [] := by
    rw [matchIncreases, increasesOf_ramp.2.2, increasesOf_ramp.2.1]
    simp [possibleMatches, hmmCandidates, sortMatches, greedyMatching]
  obtain rfl := hs1.mpr hnone
  exact ⟨by decide, by decide, by norm_num, increasesOf_ramp.2.1, hcalc⟩

/-! ## When the score is zero -/

theorem matchCost_eq_zero_iff (inc : Increases) {w : ℚ} (hw : w ≠ 0) (c : Candidate) :
    matchCost inc w c = 0 ↔
      c.indexFuzzer = c.indexHmm ∧ inc.gradientFuzzer.getD c.indexFuzzer 0 = inc.gradientHmm.getD c.indexHmm 0 := by
  rw [matchCost, add_eq_zero_iff_of_nonneg (sq_nonneg _) (sq_nonneg _), sq_eq_zero_iff,
    sq_eq_zero_iff, div_eq_zero_iff, or_iff_left hw, sub_eq_zero, sub_eq_zero, Nat.cast_inj]

theorem sum_map_eq_zero_iff {α : Type} {l : List α} {f : α → ℚ} (h : ∀ x ∈ l, 0 ≤ f x) :
    (l.map f).sum = 0 ↔ ∀ x ∈ l, f x = 0 := by
  induction l with
  | nil => simp
  | cons x l ih =>
    have hl : ∀ y ∈ l, 0 ≤ f y := fun y hy => h y (List.mem_cons_of_mem x hy)
    rw [List.map_cons, List.sum_cons, add_eq_zero_iff_of_nonneg (h x (List.mem_cons_self x l))
      (List.sum_nonneg (List.forall_mem_map.mpr hl)), ih hl, List.forall_mem_cons]

/-- The unnormalised score vanishes iff every match costs nothing and no event is left. -/
theorem scoreSum_eq_zero_iff (inc : Increases) (w : ℚ) (m : Matching) :
    scoreSum inc w m = 0 ↔
      (∀ c ∈ m.matchList, matchCost inc w c = 0) ∧ m.unmatchedFuzzer = [] ∧
        m.unmatchedHmm = [] := by
  have hnonneg : ∀ c ∈ m.matchList, 0 ≤ matchCost inc w c := fun c _ => matchCost_nonneg inc w c
  rw [scoreSum, add_eq_zero_iff_of_nonneg (List.sum_nonneg (List.forall_mem_map.mpr hnonneg))
    (by positivity), sum_map_eq_zero_iff hnonneg]
  norm_cast
  simp [Nat.add_eq_zero_iff]

/-- When both event lists are `E`, the spec's greedy pairs every event with itself: the
candidates `(e, e, 0)` come first and share no endpoint with one another. -/
theorem diag_mem_specMatches {E : List ℕ} (hE : E.Sorted (· < ·)) {w : ℚ} (hw : 0 ≤ w)
    {e : ℕ} (he : e ∈ E) : ⟨e, e, 0⟩ ∈ specMatches E E w := by
  have hmem : ⟨e, e, 0⟩ ∈ specSortedCandidates E E w :=
    mem_specSortedCandidates.mpr
      (mem_windowCandidates.mpr ⟨he, he, by simp [indexDistance], by simpa using hw⟩)
  obtain ⟨P, S, hsplit⟩ := List.append_of_mem hmem
  have hpw := specSortedCandidates_pairwise hE hE w
  rw [hsplit] at hpw
  rw [specMatches, hsplit]
  refine mem_foldl_acceptStep (by simp [Free]) fun p hp hconf => ?_
  have hlt := (List.pairwise_append.mp hpw).2.2 p hp _ (List.mem_cons_self _ _)
  have hp' : p ∈ specSortedCandidates E E w := hsplit ▸ List.mem_append_left _ hp
  have hdist := (mem_windowCandidates.mp (mem_specSortedCandidates.mp hp')).2.2.1
  rw [matchOrder_lt_iff] at hlt
  dsimp only at hlt
  have hd0 : p.dist = 0 := by omega
  have hpp : p.indexFuzzer = p.indexHmm := indexDistance_eq_zero.mp (hdist ▸ hd0)
  unfold Conflict at hconf
  dsimp only at hconf
  omega

/-- Once events exist, the score is zero exactly when both curves have the same events and
the same gradient at each of them. -/
theorem scoreSum_matchIncreases_eq_zero_iff (inc : Increases) {w : ℚ} (hw : 0 < w) :
    scoreSum inc w (matchIncreases inc w) = 0 ↔
      inc.indicesFuzzer = inc.indicesHmm ∧
        ∀ e ∈ inc.indicesFuzzer, inc.gradientFuzzer.getD e 0 = inc.gradientHmm.getD e 0 := by
  have hmax := matchingOf_specMatches_isMaximal inc.sorted_fuzzer.nodup inc.sorted_hmm.nodup w
  rw [matchIncreases_eq, scoreSum_eq_zero_iff, hmax.unmatchedFuzzer_eq, hmax.unmatchedHmm_eq,
    filter_not_mem_map_eq_nil, filter_not_mem_map_eq_nil]
  constructor
  · rintro ⟨hcost, hF, hH⟩
    -- every event is matched, and matched to itself
    have hdiag : ∀ c ∈ specMatches inc.indicesFuzzer inc.indicesHmm w, c.indexFuzzer = c.indexHmm ∧
        inc.gradientFuzzer.getD c.indexFuzzer 0 = inc.gradientHmm.getD c.indexHmm 0 :=
      fun c hc => (matchCost_eq_zero_iff inc hw.ne' c).mp (hcost c hc)
    have hsame : ∀ e, e ∈ inc.indicesFuzzer ↔ e ∈ inc.indicesHmm := fun e => by
      constructor
      · intro he
        obtain ⟨c, hc, rfl⟩ := hF e he
        exact (hdiag c hc).1 ▸ (hmax.mem c hc).2
      · intro he
        obtain ⟨c, hc, rfl⟩ := hH e he
        exact (hdiag c hc).1.symm ▸ (hmax.mem c hc).1
    refine ⟨List.eq_of_perm_of_sorted ((List.perm_ext_iff_of_nodup inc.sorted_fuzzer.nodup
      inc.sorted_hmm.nodup).mpr hsame) inc.sorted_fuzzer inc.sorted_hmm, fun e he => ?_⟩
    obtain ⟨c, hc, rfl⟩ := hF e he
    rw [(hdiag c hc).2, ← (hdiag c hc).1]
  · rintro ⟨hEq, hgrad⟩
    have hdiag : ∀ e ∈ inc.indicesFuzzer, ⟨e, e, 0⟩ ∈ specMatches inc.indicesFuzzer inc.indicesHmm w := by
      intro e he
      rw [← hEq]
      exact diag_mem_specMatches inc.sorted_fuzzer hw.le he
    refine ⟨fun c hc => ?_, fun e he => ⟨_, hdiag e he, rfl⟩,
      fun e he => ⟨_, hdiag e (hEq ▸ he), rfl⟩⟩
    have ha := (hmax.mem c hc).1
    have hc' : c = ⟨c.indexFuzzer, c.indexFuzzer, 0⟩ :=
      List.inj_on_of_nodup_map hmax.fuzzer_once hc (hdiag c.indexFuzzer ha) rfl
    rw [matchCost_eq_zero_iff inc hw.ne', hc']
    exact ⟨rfl, hgrad c.indexFuzzer ha⟩

/-- For curves of at least two points and a positive window, the events are always
computed, and when some event exists the score is `0` exactly when both curves have the same
events and equal gradients at each of them; in particular a curve with an event scores `0`
against itself. -/
theorem calculateCoverageSimilarity_eq_zero_iff (A B : List ℚ) (w : ℚ) (hA : 2 ≤ A.length)
    (hB : 2 ≤ B.length) (hw : 0 < w) :
    (∃ inc, findIncreases A B = .ok inc ∧
      (inc.indicesFuzzer ≠ [] ∨ inc.indicesHmm ≠ [] →
        ∃ s, calculateCoverageSimilarity A B w = .ok s ∧
          (s = 0 ↔ inc.indicesFuzzer = inc.indicesHmm ∧
            ∀ e ∈ inc.indicesFuzzer, inc.gradientFuzzer.getD e 0 = inc.gradientHmm.getD e 0))) ∧
      ∀ inc, findIncreases A A = .ok inc → inc.indicesFuzzer ≠ [] →
        calculateCoverageSimilarity A A w = .ok 0 := by
  have hden : ∀ inc : Increases, inc.indicesFuzzer ≠ [] ∨ inc.indicesHmm ≠ [] →
      ((2 * (inc.indicesFuzzer.length + inc.indicesHmm.length) : ℕ) : ℚ) ≠ 0 :=
    fun _ hev => (scoreDenominator_pos hev).ne'
  refine ⟨?_, fun inc h hev => ?_⟩
  · obtain ⟨inc, h⟩ := findIncreases_of_length hA hB
    refine ⟨inc, h, fun hev => ⟨_, by rw [calculateCoverageSimilarity_eq h hw.ne',
      pyDiv_of_ne_zero (hden inc hev)], ?_⟩⟩
    rw [div_eq_zero_iff, or_iff_left (hden inc hev), scoreSum_matchIncreases_eq_zero_iff inc hw]
  · obtain ⟨hI, hG⟩ := findIncreases_self h
    have h0 := (scoreSum_matchIncreases_eq_zero_iff inc hw).mpr ⟨hI, fun e _ => by rw [hG]⟩
    rw [calculateCoverageSimilarity_eq h hw.ne', h0, pyDiv_of_ne_zero (hden inc (Or.inl hev)),
      zero_div]

theorem calculateCoverageSimilarity_eq_zero_iff_of_ramp :
    2 ≤ [0, 1].length ∧ 2 ≤ [1, 1].length ∧ (0 : ℚ) < 5 ∧
      (∃ s, calculateCoverageSimilarity [0, 1] [1, 1] 5 = .ok s ∧ s ≠ 0) ∧
      calculateCoverageSimilarity [0, 1] [0, 1] 5 = .ok 0 := by
  obtain ⟨⟨inc, h, hs⟩, hself⟩ :=
    calculateCoverageSimilarity_eq_zero_iff [0, 1] [1, 1] 5 (by decide) (by decide) (by norm_num)
  obtain rfl : inc = increasesOf [1, 1] [0, 0] := Except.ok.inj (h.symm.trans findIncreases_ramp.2)
  obtain ⟨s, hcalc, hs0⟩ := hs (.inl (by rw [increasesOf_ramp.2.1]; simp))
  refine ⟨by decide, by decide, by norm_num, ⟨s, hcalc, fun h0 => ?_⟩,
    hself _ findIncreases_ramp.1 (by rw [increasesOf_ramp.1]; simp)⟩
  -- the ramp has events and the flat curve none, so the score is not zero
  have hsame := (hs0.mp h0).1
  rw [increasesOf_ramp.2.1, increasesOf_ramp.2.2] at hsame
  exact List.cons_ne_nil _ _ hsame

/-! ## Exchanging the two curves -/

/-- The unnormalised score does not depend on which curve is passed first. -/
theorem scoreSum_swap (inc : Increases) (w : ℚ) :
    scoreSum inc.swap w (matchIncreases inc.swap w) = scoreSum inc w (matchIncreases inc w) := by
  have hp := specMatches_swap_perm inc.sorted_fuzzer inc.sorted_hmm w
  have hM : (matchIncreases inc.swap w).matchList = specMatches inc.indicesHmm inc.indicesFuzzer w :=
    matchList_matchIncreases inc.swap w
  have hcost : ((matchIncreases inc.swap w).matchList.map (matchCost inc.swap w)).sum =
      ((matchIncreases inc w).matchList.map (matchCost inc w)).sum := by
    rw [hM, matchList_matchIncreases, (hp.map _).sum_eq, List.map_map]
    congr 1
    apply List.map_congr_left
    intro c _
    simp only [Function.comp_apply, matchCost, Candidate.swap, Increases.swap]
    ring
  have hlen : (matchIncreases inc.swap w).matchList.length =
      (matchIncreases inc w).matchList.length := by
    rw [hM, matchList_matchIncreases, hp.length_eq, List.length_map]
  -- the unmatched events are what the equally many matches leave over
  have hcount := count_matchIncreases inc w
  have hcount' : 2 * (matchIncreases inc.swap w).matchList.length +
      (matchIncreases inc.swap w).unmatchedFuzzer.length +
      (matchIncreases inc.swap w).unmatchedHmm.length =
      inc.indicesHmm.length + inc.indicesFuzzer.length :=
    count_matchIncreases inc.swap w
  have hU : (matchIncreases inc.swap w).unmatchedFuzzer.length +
      (matchIncreases inc.swap w).unmatchedHmm.length =
      (matchIncreases inc w).unmatchedFuzzer.length + (matchIncreases inc w).unmatchedHmm.length := by
    omega
  rw [scoreSum, scoreSum, hcost]
  exact_mod_cast congrArg (fun n : ℕ => (_ : ℚ) + 2 * n) hU

/-- Exchanging the two curves never changes the outcome: both orders raise alike, or both
return the same score. -/
theorem calculateCoverageSimilarity_comm (A B : List ℚ) {w : ℚ} (hw : 0 < w) :
    calculateCoverageSimilarity A B w = calculateCoverageSimilarity B A w := by
  rw [calculateCoverageSimilarity, calculateCoverageSimilarity, findIncreases_swap A B]
  cases findIncreases A B with
  | error e => rfl
  | ok inc =>
    simp only [Except.map, ok_bind, coverageScore_eq _ hw.ne', scoreSum_swap]
    simp only [Increases.swap, Nat.add_comm]

theorem calculateCoverageSimilarity_comm_of_ramp :
    (0 : ℚ) < 5 ∧
      calculateCoverageSimilarity [0, 1] [1, 1] 5 = calculateCoverageSimilarity [1, 1] [0, 1] 5 :=
  ⟨by norm_num, calculateCoverageSimilarity_comm [0, 1] [1, 1] (by norm_num)⟩

/-! ## Rescaling a curve -/

/-- Multiplying a curve by a positive factor changes nothing: `normalize` divides the factor
out, so the two calls raise alike or return the same score, whichever curve is rescaled. -/
theorem calculateCoverageSimilarity_map_mul {k : ℚ} (hk : 0 < k) (A B : List ℚ) (w : ℚ) :
    (∀ c : List ℚ, normalize (c.map (k * ·)) = normalize c) ∧
      calculateCoverageSimilarity (A.map (k * ·)) B w = calculateCoverageSimilarity A B w ∧
      calculateCoverageSimilarity A (B.map (k * ·)) w = calculateCoverageSimilarity A B w := by
  refine ⟨normalize_map_mul hk, ?_, ?_⟩ <;>
    simp only [calculateCoverageSimilarity, findIncreases, normalize_map_mul hk]

theorem calculateCoverageSimilarity_map_mul_of_double :
    (0 : ℚ) < 2 ∧
      calculateCoverageSimilarity ([0, 1].map (2 * ·)) [1, 1] 5 =
        calculateCoverageSimilarity [0, 1] [1, 1] 5 :=
  ⟨by norm_num, (calculateCoverageSimilarity_map_mul (by norm_num) [0, 1] [1, 1] 5).2.1⟩

/-! ## Every outcome -/

/-- Every outcome of `calculate_coverage_similarity` for a positive window, in exact
arithmetic: it raises `ValueError` exactly when a normalised curve has fewer than two points,
raises `ZeroDivisionError` exactly when both have at least two and neither has a growth event,
and returns a score exactly when some growth event exists; every score lies in `[0, 1]`. -/
theorem calculateCoverageSimilarity_outcome (A B : List ℚ) {w : ℚ} (hw : 0 < w) :
    (calculateCoverageSimilarity A B w = .error .valueError ↔
        (normalize A).length < 2 ∨ (normalize B).length < 2) ∧
      (calculateCoverageSimilarity A B w = .error .zeroDivisionError ↔
        ∃ inc, findIncreases A B = .ok inc ∧ inc.indicesFuzzer = [] ∧ inc.indicesHmm = []) ∧
      ((∃ s, calculateCoverageSimilarity A B w = .ok s) ↔
        ∃ inc, findIncreases A B = .ok inc ∧ (inc.indicesFuzzer ≠ [] ∨ inc.indicesHmm ≠ [])) ∧
      ∀ s, calculateCoverageSimilarity A B w = .ok s → 0 ≤ s ∧ s ≤ 1 := by
  by_cases hshort : (normalize A).length < 2 ∨ (normalize B).length < 2
  · have hf := findIncreases_of_short hshort
    have hc : calculateCoverageSimilarity A B w = .error .valueError := by
      simp [calculateCoverageSimilarity, hf]
    simp [hc, hf, hshort]
  have hlong : 2 ≤ (normalize A).length ∧ 2 ≤ (normalize B).length := by omega
  obtain ⟨inc, h⟩ := findIncreases_of_normalize_length hlong.1 hlong.2
  -- the only events are those of `inc`
  have hinc : ∀ inc', findIncreases A B = .ok inc' → inc' = inc := fun _ h' =>
    Except.ok.inj (h'.symm.trans h)
  by_cases hev : inc.indicesFuzzer ≠ [] ∨ inc.indicesHmm ≠ []
  · -- some event: the division is by a positive number
    have hs := score_mem_unit (findIncreases_eventsInUnit h) hw hev
    have hc := calculateCoverageSimilarity_eq h hw.ne'
    rw [pyDiv_of_ne_zero (scoreDenominator_pos hev).ne'] at hc
    refine ⟨⟨fun h' => by simp [hc] at h', fun h' => absurd h' hshort⟩,
      ⟨fun h' => by simp [hc] at h', ?_⟩, ⟨fun _ => ⟨inc, h, hev⟩, fun _ => ⟨_, hc⟩⟩,
      fun s hs' => ?_⟩
    · rintro ⟨inc', h', h1, h2⟩
      rw [hinc inc' h'] at h1 h2
      exact (hev.elim (· h1) (· h2)).elim
    · rw [hc, Except.ok.injEq] at hs'
      exact hs' ▸ ⟨hs.1, hs.2.1⟩
  · -- no event: the division is by zero
    rw [not_or, not_not, not_not] at hev
    have hc : calculateCoverageSimilarity A B w = .error .zeroDivisionError := by
      rw [calculateCoverageSimilarity_eq h hw.ne', hev.1, hev.2]
      simp
    refine ⟨⟨fun h' => by simp [hc] at h', fun h' => absurd h' hshort⟩,
      ⟨fun _ => ⟨inc, h, hev⟩, fun _ => hc⟩, ⟨fun ⟨s, hs⟩ => by simp [hc] at hs, ?_⟩,
      fun s hs => by simp [hc] at hs⟩
    rintro ⟨inc', h', hev'⟩
    rw [hinc inc' h'] at hev'
    exact absurd hev (by tauto)

theorem calculateCoverageSimilarity_outcome_of_ramp :
    (0 : ℚ) < 5 ∧ calculateCoverageSimilarity [] [0, 1] 5 = .error .valueError ∧
      ∃ s, calculateCoverageSimilarity [0, 1] [1, 1] 5 = .ok s :=
  ⟨by norm_num,
    (calculateCoverageSimilarity_outcome [] [0, 1] (by norm_num : (0 : ℚ) < 5)).1.mpr
      (.inl (by norm_num [normalize])),
    (calculateCoverageSimilarity_outcome [0, 1] [1, 1] (by norm_num : (0 : ℚ) < 5)).2.2.1.mpr
      ⟨_, findIncreases_ramp.2, .inl (by rw [increasesOf_ramp.2.1]; simp)⟩⟩

end HmmCoverage
