import HmmCoverage.Measures.Candidates

/-!
# The greedy windowed matching

`calculate_coverage_similarity` walks the sorted candidates once and accepts a candidate
`(a, b, d)` when `a` is still in `unmatched_fuzzer` and `b` still in `unmatched_hmm`,
removing both on acceptance.  Spec §4.3 describes the same loop without the unmatched lists:
accept a pair iff neither endpoint was accepted before.  This module models the loop as the
code writes it, shows that it runs the spec's greedy (`acceptStep`) with the unmatched lists
being the events no accepted pair touches, and derives what the loop guarantees over every
run: a maximal matching of the window graph, and an outcome that depends on the order of
the candidates only through the relative order of candidates sharing an endpoint.
-/

namespace HmmCoverage

/-! ## The loop of the code -/

/-- The state of the greedy loop: `matches`, `unmatched_fuzzer` and `unmatched_hmm`
(`matches` is a keyword of Lean). -/
structure Matching where
  matchList : List Candidate
  unmatchedFuzzer : List ℕ
  unmatchedHmm : List ℕ

/-- One pass of the greedy loop: accept `(index_fuzzer, index_hmm, dist)` iff both indices
are still unmatched, then `remove` them from the unmatched lists. -/
def greedyStep (m : Matching) (c : Candidate) : Matching :=
  if c.indexFuzzer ∈ m.unmatchedFuzzer ∧ c.indexHmm ∈ m.unmatchedHmm then
    ⟨m.matchList ++ [c], m.unmatchedFuzzer.erase c.indexFuzzer, m.unmatchedHmm.erase c.indexHmm⟩
  else m

/-- The greedy loop over `sorted_matches`.  The unmatched lists start as the index lists
themselves: the code aliases them, and reads the index lists only before the loop. -/
def greedyMatching (sortedMatches : List Candidate) (indicesFuzzer indicesHmm : List ℕ) :
    Matching :=
  sortedMatches.foldl greedyStep ⟨[], indicesFuzzer, indicesHmm⟩

/-- Lines 82–100 of `calculate_coverage_similarity`: generate the candidates, sort them by
distance and run the greedy loop. -/
def matchIncreases (inc : Increases) (maxDistance : ℚ) : Matching :=
  greedyMatching (sortMatches (possibleMatches inc.indicesFuzzer inc.indicesHmm maxDistance))
    inc.indicesFuzzer inc.indicesHmm

/-! ## The greedy of spec §4.3 -/

/-- Spec §4.3, step 4: accept a candidate iff neither of its endpoints was accepted
before. -/
def acceptStep (accepted : List Candidate) (c : Candidate) : List Candidate :=
  if c.indexFuzzer ∉ accepted.map (·.indexFuzzer) ∧ c.indexHmm ∉ accepted.map (·.indexHmm) then accepted ++ [c]
  else accepted

/-- The matches of spec §4.3: the greedy over the window pairs in the order
`(|a - b|, a, b)`. -/
def specMatches (indicesFuzzer indicesHmm : List ℕ) (maxDistance : ℚ) : List Candidate :=
  (specSortedCandidates indicesFuzzer indicesHmm maxDistance).foldl acceptStep []

/-- The code's loop state determined by the accepted list: the unmatched lists are the
events no accepted pair touches. -/
def matchingOf (indicesFuzzer indicesHmm : List ℕ) (accepted : List Candidate) : Matching :=
  ⟨accepted, indicesFuzzer.filter (· ∉ accepted.map (·.indexFuzzer)),
    indicesHmm.filter (· ∉ accepted.map (·.indexHmm))⟩

section Simulation

variable {EA EB : List ℕ}

/-- Removing `a` from the events outside `F` leaves the events outside `F ++ [a]`. -/
theorem erase_filter_not_mem {l : List ℕ} (hl : l.Nodup) (F : List ℕ) (a : ℕ) :
    (l.filter (· ∉ F)).erase a = l.filter (· ∉ F ++ [a]) := by
  rw [(hl.filter _).erase_eq_filter, List.filter_filter]
  apply List.filter_congr
  intro x _
  by_cases hx : x = a
  · subst hx
    simp
  · rw [bne_iff_ne.mpr hx, Bool.true_and]
    simp [hx]

theorem greedyStep_matchingOf (hA : EA.Nodup) (hB : EB.Nodup) (acc : List Candidate)
    {c : Candidate} (hc : c.indexFuzzer ∈ EA ∧ c.indexHmm ∈ EB) :
    greedyStep (matchingOf EA EB acc) c = matchingOf EA EB (acceptStep acc c) := by
  by_cases h : c.indexFuzzer ∉ acc.map (·.indexFuzzer) ∧ c.indexHmm ∉ acc.map (·.indexHmm)
  · have hfree : c.indexFuzzer ∈ EA.filter (· ∉ acc.map (·.indexFuzzer)) ∧ c.indexHmm ∈ EB.filter (· ∉ acc.map (·.indexHmm)) := by
      simp only [List.mem_filter, decide_eq_true_eq]
      exact ⟨⟨hc.1, h.1⟩, hc.2, h.2⟩
    simp only [greedyStep, matchingOf, acceptStep, if_pos hfree, if_pos h,
      erase_filter_not_mem hA, erase_filter_not_mem hB, List.map_append, List.map_singleton]
  · have hblocked : ¬ (c.indexFuzzer ∈ EA.filter (· ∉ acc.map (·.indexFuzzer)) ∧
        c.indexHmm ∈ EB.filter (· ∉ acc.map (·.indexHmm))) := by
      simp only [List.mem_filter, decide_eq_true_eq]
      exact fun h' => h ⟨h'.1.2, h'.2.2⟩
    simp only [greedyStep, matchingOf, acceptStep, if_neg h]
    exact if_neg hblocked

/-- The code's loop runs the spec's greedy: its state is always the one the accepted list
determines. -/
theorem foldl_greedyStep_matchingOf (hA : EA.Nodup) (hB : EB.Nodup) {L : List Candidate}
    (hL : ∀ c ∈ L, c.indexFuzzer ∈ EA ∧ c.indexHmm ∈ EB) (acc : List Candidate) :
    L.foldl greedyStep (matchingOf EA EB acc) = matchingOf EA EB (L.foldl acceptStep acc) := by
  induction L generalizing acc with
  | nil => rfl
  | cons c L ih =>
    rw [List.foldl_cons, greedyStep_matchingOf hA hB acc (hL c (List.mem_cons_self c L)),
      ih (fun c' hc' => hL c' (List.mem_cons_of_mem c hc')), List.foldl_cons]

theorem greedyMatching_eq (hA : EA.Nodup) (hB : EB.Nodup) {L : List Candidate}
    (hL : ∀ c ∈ L, c.indexFuzzer ∈ EA ∧ c.indexHmm ∈ EB) :
    greedyMatching L EA EB = matchingOf EA EB (L.foldl acceptStep []) := by
  have h0 : (⟨[], EA, EB⟩ : Matching) = matchingOf EA EB [] := by simp [matchingOf]
  rw [greedyMatching, h0, foldl_greedyStep_matchingOf hA hB hL]

end Simulation

theorem mem_specSortedCandidates {EA EB : List ℕ} {w : ℚ} {c : Candidate} :
    c ∈ specSortedCandidates EA EB w ↔ c ∈ windowCandidates EA EB w :=
  List.mem_mergeSort

/-- The code's candidates, sort and loop compute the matches of spec §4.3, and the unmatched
lists are the events those matches leave free. -/
theorem matchIncreases_eq (inc : Increases) (w : ℚ) :
    matchIncreases inc w =
      matchingOf inc.indicesFuzzer inc.indicesHmm (specMatches inc.indicesFuzzer inc.indicesHmm w) := by
  rw [matchIncreases, sortMatches_possibleMatches inc.sorted_fuzzer inc.sorted_hmm,
    greedyMatching_eq inc.sorted_fuzzer.nodup inc.sorted_hmm.nodup, specMatches]
  intro c hc
  obtain ⟨ha, hb, -⟩ := mem_windowCandidates.mp (mem_specSortedCandidates.mp hc)
  exact ⟨ha, hb⟩

theorem matchList_matchIncreases (inc : Increases) (w : ℚ) :
    (matchIncreases inc w).matchList = specMatches inc.indicesFuzzer inc.indicesHmm w := by
  rw [matchIncreases_eq]
  rfl

/-! ## What every run of the spec's greedy keeps -/

/-- Two candidates share an endpoint. -/
def Conflict (x y : Candidate) : Prop := x.indexFuzzer = y.indexFuzzer ∨ x.indexHmm = y.indexHmm

/-- Neither endpoint of `c` is used by an accepted candidate. -/
def Free (accepted : List Candidate) (c : Candidate) : Prop :=
  c.indexFuzzer ∉ accepted.map (·.indexFuzzer) ∧ c.indexHmm ∉ accepted.map (·.indexHmm)

theorem Conflict.symm {x y : Candidate} (h : Conflict x y) : Conflict y x :=
  h.imp Eq.symm Eq.symm

theorem acceptStep_of_free {acc : List Candidate} {c : Candidate} (h : Free acc c) :
    acceptStep acc c = acc ++ [c] :=
  if_pos h

theorem acceptStep_of_not_free {acc : List Candidate} {c : Candidate} (h : ¬ Free acc c) :
    acceptStep acc c = acc :=
  if_neg h

/-- A candidate stays free while only candidates it does not conflict with are added. -/
theorem free_append {acc new : List Candidate} {c : Candidate} (h : Free acc c)
    (hnew : ∀ x ∈ new, ¬ Conflict x c) : Free (acc ++ new) c := by
  simp only [Free, List.map_append, List.mem_append, not_or]
  refine ⟨⟨h.1, fun hm => ?_⟩, h.2, fun hm => ?_⟩
  · obtain ⟨x, hx, hxc⟩ := List.mem_map.mp hm
    exact hnew x hx (Or.inl hxc)
  · obtain ⟨x, hx, hxc⟩ := List.mem_map.mp hm
    exact hnew x hx (Or.inr hxc)

/-- A run only appends, and only candidates it met. -/
theorem foldl_acceptStep_eq_append (L acc : List Candidate) :
    ∃ new, L.foldl acceptStep acc = acc ++ new ∧ new.Sublist L := by
  induction L generalizing acc with
  | nil => exact ⟨[], by simp, List.Sublist.slnil⟩
  | cons c L ih =>
    by_cases h : Free acc c
    · obtain ⟨new, hnew, hsub⟩ := ih (acc ++ [c])
      exact ⟨c :: new, by simp [acceptStep_of_free h, hnew], hsub.cons₂ c⟩
    · obtain ⟨new, hnew, hsub⟩ := ih acc
      exact ⟨new, by simp [acceptStep_of_not_free h, hnew], hsub.cons c⟩

/-- No event is used twice on either side. -/
def EndpointsDistinct (accepted : List Candidate) : Prop :=
  (accepted.map (·.indexFuzzer)).Nodup ∧ (accepted.map (·.indexHmm)).Nodup

theorem endpointsDistinct_acceptStep {acc : List Candidate} (h : EndpointsDistinct acc)
    (c : Candidate) : EndpointsDistinct (acceptStep acc c) := by
  by_cases hc : Free acc c
  · simp only [acceptStep_of_free hc, EndpointsDistinct, List.map_append, List.map_singleton,
      List.nodup_append, List.nodup_singleton, List.disjoint_singleton]
    exact ⟨⟨h.1, trivial, hc.1⟩, h.2, trivial, hc.2⟩
  · rwa [acceptStep_of_not_free hc]

theorem endpointsDistinct_foldl (L : List Candidate) {acc : List Candidate}
    (h : EndpointsDistinct acc) : EndpointsDistinct (L.foldl acceptStep acc) := by
  induction L generalizing acc with
  | nil => exact h
  | cons c L ih => exact ih (endpointsDistinct_acceptStep h c)

/-- After a run, every candidate it met shares an endpoint with an accepted one. -/
theorem not_free_foldl (L acc : List Candidate) : ∀ c ∈ L, ¬ Free (L.foldl acceptStep acc) c := by
  induction L generalizing acc with
  | nil => simp
  | cons c L ih =>
    have hc : ¬ Free (acceptStep acc c) c := by
      by_cases h : Free acc c
      · simp [acceptStep_of_free h, Free]
      · rwa [acceptStep_of_not_free h]
    obtain ⟨new, hnew, -⟩ := foldl_acceptStep_eq_append L (acceptStep acc c)
    intro c' hc'
    rcases List.mem_cons.mp hc' with rfl | hc'
    · rw [List.foldl_cons, hnew]
      simp only [Free, List.map_append, List.mem_append, not_or] at hc ⊢
      tauto
    · exact ih _ c' hc'

/-- A candidate that meets no conflicting candidate before it, and is free at the start, is
accepted. -/
theorem mem_foldl_acceptStep {P S acc : List Candidate} {c : Candidate} (hfree : Free acc c)
    (hP : ∀ p ∈ P, ¬ Conflict p c) : c ∈ (P ++ c :: S).foldl acceptStep acc := by
  obtain ⟨new, hnew, hsub⟩ := foldl_acceptStep_eq_append P acc
  have hfree' : Free (P.foldl acceptStep acc) c := by
    rw [hnew]
    exact free_append hfree fun x hx => hP x (hsub.subset hx)
  obtain ⟨new', hnew', -⟩ := foldl_acceptStep_eq_append S (acceptStep (P.foldl acceptStep acc) c)
  rw [List.foldl_append, List.foldl_cons, hnew', acceptStep_of_free hfree']
  simp

/-! ## Order independence -/

theorem free_of_perm {acc acc' : List Candidate} (h : acc.Perm acc') (c : Candidate) :
    Free acc c ↔ Free acc' c := by
  simp only [Free, (h.map _).mem_iff]

theorem free_acceptStep {acc : List Candidate} {x c : Candidate} (hxc : ¬ Conflict x c) :
    Free (acceptStep acc x) c ↔ Free acc c := by
  by_cases hx : Free acc x
  · rw [acceptStep_of_free hx]
    simp only [Free, List.map_append, List.map_singleton, List.mem_append, List.mem_singleton,
      not_or]
    simp only [Conflict, not_or] at hxc
    exact ⟨fun h => ⟨h.1.1, h.2.1⟩, fun h => ⟨⟨h.1, Ne.symm hxc.1⟩, h.2, Ne.symm hxc.2⟩⟩
  · rw [acceptStep_of_not_free hx]

theorem acceptStep_perm {acc acc' : List Candidate} (h : acc.Perm acc') (c : Candidate) :
    (acceptStep acc c).Perm (acceptStep acc' c) := by
  by_cases hc : Free acc c
  · rw [acceptStep_of_free hc, acceptStep_of_free ((free_of_perm h c).mp hc)]
    exact h.append_right [c]
  · rw [acceptStep_of_not_free hc, acceptStep_of_not_free (mt (free_of_perm h c).mpr hc)]
    exact h

theorem foldl_acceptStep_perm (L : List Candidate) {acc acc' : List Candidate}
    (h : acc.Perm acc') : (L.foldl acceptStep acc).Perm (L.foldl acceptStep acc') := by
  induction L generalizing acc acc' with
  | nil => exact h
  | cons c L ih => exact ih (acceptStep_perm h c)

/-- Two candidates that share no endpoint can be met in either order. -/
theorem acceptStep_swap (acc : List Candidate) {x y : Candidate} (hxy : ¬ Conflict x y) :
    (acceptStep (acceptStep acc x) y).Perm (acceptStep (acceptStep acc y) x) := by
  have hyx : ¬ Conflict y x := fun h => hxy h.symm
  by_cases hx : Free acc x <;> by_cases hy : Free acc y
  · rw [acceptStep_of_free ((free_acceptStep hxy).mpr hy), acceptStep_of_free hx,
      acceptStep_of_free ((free_acceptStep hyx).mpr hx), acceptStep_of_free hy,
      List.append_assoc, List.append_assoc]
    exact List.Perm.append_left acc (List.Perm.swap y x [])
  · rw [acceptStep_of_not_free (mt (free_acceptStep hxy).mp hy), acceptStep_of_not_free hy]
  · rw [acceptStep_of_not_free hx, acceptStep_of_not_free (mt (free_acceptStep hyx).mp hx)]
  · rw [acceptStep_of_not_free hx, acceptStep_of_not_free hy, acceptStep_of_not_free hx]

/-- A candidate can be met before every candidate it does not conflict with. -/
theorem foldl_acceptStep_move {P : List Candidate} {x : Candidate}
    (hP : ∀ p ∈ P, ¬ Conflict p x) (S acc : List Candidate) :
    ((P ++ x :: S).foldl acceptStep acc).Perm ((x :: (P ++ S)).foldl acceptStep acc) := by
  induction P generalizing acc with
  | nil => exact List.Perm.refl _
  | cons p P ih =>
    have hp : ¬ Conflict p x := hP p (List.mem_cons_self p P)
    exact (ih (fun q hq => hP q (List.mem_cons_of_mem p hq)) _).trans
      (foldl_acceptStep_perm _ (acceptStep_swap acc hp))

/-- The spec's greedy accepts the same candidates, up to order, from any two orders of one
candidate list that agree on every two candidates sharing an endpoint, here expressed as
both being sorted on such pairs by one asymmetric relation `lt`. -/
theorem foldl_acceptStep_perm_of_agree {lt : Candidate → Candidate → Prop}
    (hlt : ∀ x y, lt x y → ¬ lt y x) {L₁ L₂ : List Candidate} (hperm : L₁.Perm L₂)
    (h₁ : L₁.Pairwise fun x y => Conflict x y → lt x y)
    (h₂ : L₂.Pairwise fun x y => Conflict x y → lt x y) (acc : List Candidate) :
    (L₁.foldl acceptStep acc).Perm (L₂.foldl acceptStep acc) := by
  induction L₁ generalizing L₂ acc with
  | nil => rw [hperm.nil_eq.symm]
  | cons x L₁ ih =>
    obtain ⟨P, S, rfl⟩ := List.append_of_mem (hperm.subset (List.mem_cons_self x L₁))
    -- No candidate met before `x` in the second order shares an endpoint with it.
    have hP : ∀ p ∈ P, ¬ Conflict p x := by
      intro p hp hpx
      have hltpx : lt p x :=
        (List.pairwise_append.mp h₂).2.2 p hp x (List.mem_cons_self x S) hpx
      rcases List.mem_cons.mp (hperm.symm.subset (List.mem_append_left _ hp)) with rfl | hpL
      · exact hlt p p hltpx hltpx
      · exact hlt p x hltpx (List.rel_of_pairwise_cons h₁ hpL hpx.symm)
    have hperm' : L₁.Perm (P ++ S) := (hperm.trans List.perm_middle).cons_inv
    have h₂' := h₂.sublist ((List.sublist_cons_self x S).append_left P)
    exact (ih hperm' (List.pairwise_cons.mp h₁).2 h₂' _).trans (foldl_acceptStep_move hP S acc).symm

/-! ## The matching the loop produces -/

/-- A maximal matching of the window graph between the event lists `EA` and `EB`, together
with the unmatched lists as the code reports them. -/
structure IsMaximalWindowMatching (EA EB : List ℕ) (w : ℚ) (m : Matching) : Prop where
  mem : ∀ c ∈ m.matchList, c.indexFuzzer ∈ EA ∧ c.indexHmm ∈ EB
  fuzzer_once : (m.matchList.map (·.indexFuzzer)).Nodup
  hmm_once : (m.matchList.map (·.indexHmm)).Nodup
  dist : ∀ c ∈ m.matchList, c.dist = indexDistance c.indexFuzzer c.indexHmm ∧ (c.dist : ℚ) ≤ w
  unmatchedFuzzer_eq : m.unmatchedFuzzer = EA.filter (· ∉ m.matchList.map (·.indexFuzzer))
  unmatchedHmm_eq : m.unmatchedHmm = EB.filter (· ∉ m.matchList.map (·.indexHmm))
  count : 2 * m.matchList.length + m.unmatchedFuzzer.length + m.unmatchedHmm.length =
    EA.length + EB.length
  maximal : ∀ a ∈ m.unmatchedFuzzer, ∀ b ∈ m.unmatchedHmm, w < indexDistance a b

/-- Removing the distinct events `F` of a list without repeats removes `|F|` entries. -/
theorem length_filter_not_mem {l F : List ℕ} (hl : l.Nodup) (hF : F.Nodup)
    (hsub : ∀ x ∈ F, x ∈ l) : (l.filter (· ∉ F)).length + F.length = l.length := by
  have hin : (l.filter (· ∈ F)).Perm F :=
    (List.perm_ext_iff_of_nodup (hl.filter _) hF).mpr fun x => by
      simpa using fun h => hsub x h
  rw [← hin.length_eq, ← (List.filter_append_perm (· ∈ F) l).length_eq, List.length_append,
    Nat.add_comm]
  simp

/-- No event is left over iff every event is an endpoint of a match. -/
theorem filter_not_mem_map_eq_nil {l : List ℕ} {M : List Candidate} {f : Candidate → ℕ} :
    l.filter (· ∉ M.map f) = [] ↔ ∀ e ∈ l, ∃ c ∈ M, f c = e := by
  simp only [List.filter_eq_nil_iff, decide_eq_true_eq, not_not, List.mem_map]

theorem specMatches_mem {EA EB : List ℕ} {w : ℚ} {c : Candidate}
    (hc : c ∈ specMatches EA EB w) : c ∈ windowCandidates EA EB w := by
  obtain ⟨new, hnew, hsub⟩ := foldl_acceptStep_eq_append (specSortedCandidates EA EB w) []
  rw [specMatches, hnew, List.nil_append] at hc
  exact mem_specSortedCandidates.mp (hsub.subset hc)

/-- The spec's greedy, read back as the code's state, is a maximal window matching. -/
theorem matchingOf_specMatches_isMaximal {EA EB : List ℕ} (hA : EA.Nodup) (hB : EB.Nodup)
    (w : ℚ) : IsMaximalWindowMatching EA EB w (matchingOf EA EB (specMatches EA EB w)) := by
  have hwin : ∀ c ∈ specMatches EA EB w, c.indexFuzzer ∈ EA ∧ c.indexHmm ∈ EB ∧
      c.dist = indexDistance c.indexFuzzer c.indexHmm ∧ (c.dist : ℚ) ≤ w := fun c hc =>
    mem_windowCandidates.mp (specMatches_mem hc)
  have hdistinct : EndpointsDistinct (specMatches EA EB w) :=
    endpointsDistinct_foldl _ ⟨List.nodup_nil, List.nodup_nil⟩
  have hcount : ∀ (l : List ℕ) (f : Candidate → ℕ), l.Nodup →
      ((specMatches EA EB w).map f).Nodup → (∀ c ∈ specMatches EA EB w, f c ∈ l) →
      (l.filter (· ∉ (specMatches EA EB w).map f)).length + (specMatches EA EB w).length =
        l.length := fun l f hl hf hmem => by
    rw [← List.length_map (specMatches EA EB w) f]
    exact length_filter_not_mem hl hf fun x hx => by
      obtain ⟨c, hc, rfl⟩ := List.mem_map.mp hx
      exact hmem c hc
  refine ⟨fun c hc => ⟨(hwin c hc).1, (hwin c hc).2.1⟩, hdistinct.1, hdistinct.2,
    fun c hc => (hwin c hc).2.2, rfl, rfl, ?_, ?_⟩
  · have h1 := hcount EA (·.indexFuzzer) hA hdistinct.1 fun c hc => (hwin c hc).1
    have h2 := hcount EB (·.indexHmm) hB hdistinct.2 fun c hc => (hwin c hc).2.1
    simp only [matchingOf]
    omega
  · intro a ha b hb
    simp only [matchingOf, List.mem_filter, decide_eq_true_eq] at ha hb
    by_contra hle
    have hc : ⟨a, b, indexDistance a b⟩ ∈ specSortedCandidates EA EB w :=
      mem_specSortedCandidates.mpr (mem_windowCandidates.mpr ⟨ha.1, hb.1, rfl, not_lt.mp hle⟩)
    exact not_free_foldl _ [] _ hc ⟨ha.2, hb.2⟩

/-- Every match of the code's loop is a window pair of the events. -/
theorem mem_windowCandidates_of_mem_matchIncreases {inc : Increases} {w : ℚ} {c : Candidate}
    (hc : c ∈ (matchIncreases inc w).matchList) :
    c ∈ windowCandidates inc.indicesFuzzer inc.indicesHmm w :=
  specMatches_mem (matchList_matchIncreases inc w ▸ hc)

/-- The code's loop accounts for every event once: twice per match, once per unmatched
event. -/
theorem count_matchIncreases (inc : Increases) (w : ℚ) :
    2 * (matchIncreases inc w).matchList.length + (matchIncreases inc w).unmatchedFuzzer.length +
      (matchIncreases inc w).unmatchedHmm.length =
        inc.indicesFuzzer.length + inc.indicesHmm.length := by
  rw [matchIncreases_eq]
  exact (matchingOf_specMatches_isMaximal inc.sorted_fuzzer.nodup inc.sorted_hmm.nodup w).count

/-- Every run of the code's greedy loop yields a maximal matching of the window graph on the
event lists: each event is matched at most once, every match is within the window, the
unmatched lists are exactly the events no match uses, and no two unmatched events are within
the window of each other. -/
theorem matchIncreases_isMaximal (inc : Increases) (w : ℚ) :
    IsMaximalWindowMatching inc.indicesFuzzer inc.indicesHmm w (matchIncreases inc w) := by
  rw [matchIncreases_eq]
  exact matchingOf_specMatches_isMaximal inc.sorted_fuzzer.nodup inc.sorted_hmm.nodup w

/-- The pruned candidate loop produces exactly the in-window pairs, and the matches the
code builds are those of the reference greedy of spec §4.3. -/
theorem matchIncreases_eq_specMatches (inc : Increases) (w : ℚ) :
    possibleMatches inc.indicesFuzzer inc.indicesHmm w =
        windowCandidates inc.indicesFuzzer inc.indicesHmm w ∧
      (matchIncreases inc w).matchList = specMatches inc.indicesFuzzer inc.indicesHmm w :=
  ⟨possibleMatches_eq _ inc.sorted_hmm w, matchList_matchIncreases inc w⟩

/-! ## Against a largest matching -/

/-- A matching of the window graph: pairs of events within the window, each event used at
most once. -/
structure IsWindowMatching (EA EB : List ℕ) (w : ℚ) (M : List Candidate) : Prop where
  mem : ∀ c ∈ M, c.indexFuzzer ∈ EA ∧ c.indexHmm ∈ EB
  dist : ∀ c ∈ M, (indexDistance c.indexFuzzer c.indexHmm : ℚ) ≤ w
  fuzzer_once : (M.map (·.indexFuzzer)).Nodup
  hmm_once : (M.map (·.indexHmm)).Nodup

/-- Every pair of the window graph shares an endpoint with a match of a maximal matching. -/
theorem IsMaximalWindowMatching.covers {EA EB : List ℕ} {w : ℚ} {m : Matching}
    (hm : IsMaximalWindowMatching EA EB w m) {c : Candidate} (hc : c.indexFuzzer ∈ EA ∧ c.indexHmm ∈ EB)
    (hw : (indexDistance c.indexFuzzer c.indexHmm : ℚ) ≤ w) :
    c.indexFuzzer ∈ m.matchList.map (·.indexFuzzer) ∨ c.indexHmm ∈ m.matchList.map (·.indexHmm) := by
  by_contra h
  rw [not_or] at h
  have ha : c.indexFuzzer ∈ m.unmatchedFuzzer := by
    rw [hm.unmatchedFuzzer_eq, List.mem_filter, decide_eq_true_eq]
    exact ⟨hc.1, h.1⟩
  have hb : c.indexHmm ∈ m.unmatchedHmm := by
    rw [hm.unmatchedHmm_eq, List.mem_filter, decide_eq_true_eq]
    exact ⟨hc.2, h.2⟩
  exact absurd hw (not_le.mpr (hm.maximal _ ha _ hb))

/-- Pairs of `M` with distinct `f`-endpoints that all occur among the `f`-endpoints of `M'`
are at most as many as `M'`. -/
theorem length_filter_le_of_nodup {M M' : List Candidate} {f : Candidate → ℕ}
    (hf : (M.map f).Nodup) (p : Candidate → Bool) (hp : ∀ c ∈ M, p c → f c ∈ M'.map f) :
    (M.filter p).length ≤ M'.length := by
  have hsub : ((M.filter p).map f).Subperm (M'.map f) :=
    List.subperm_of_subset (hf.sublist ((List.filter_sublist M).map f)) fun x hx => by
      obtain ⟨c, hc, rfl⟩ := List.mem_map.mp hx
      exact hp c (List.mem_filter.mp hc).1 (List.mem_filter.mp hc).2
  simpa using hsub.length_le

/-- A maximal matching has at least half as many pairs as any matching of the window graph:
each pair of the other matching shares an endpoint with one of its pairs, and each of its
pairs has only two endpoints. -/
theorem IsMaximalWindowMatching.length_le_two_mul {EA EB : List ℕ} {w : ℚ} {m : Matching}
    (hm : IsMaximalWindowMatching EA EB w m) {M : List Candidate}
    (hM : IsWindowMatching EA EB w M) : M.length ≤ 2 * m.matchList.length := by
  let p : Candidate → Bool := fun c => c.indexFuzzer ∈ m.matchList.map (·.indexFuzzer)
  have hfuzzer : (M.filter p).length ≤ m.matchList.length :=
    length_filter_le_of_nodup hM.fuzzer_once p fun c _ hc => of_decide_eq_true hc
  have hhmm : (M.filter (! p ·)).length ≤ m.matchList.length :=
    length_filter_le_of_nodup hM.hmm_once _ fun c hc hnp =>
      (hm.covers (hM.mem c hc) (hM.dist c hc)).resolve_left
        (by simpa only [p, Bool.not_eq_true', decide_eq_false_iff_not] using hnp)
  have hsplit : M.length = (M.filter p).length + (M.filter (! p ·)).length :=
    List.length_eq_length_filter_add p
  omega

/-- The greedy matching of the code pairs at least half as many events as a largest matching
of the window graph. -/
theorem matchIncreases_half_optimal (inc : Increases) (w : ℚ) {M : List Candidate}
    (hM : IsWindowMatching inc.indicesFuzzer inc.indicesHmm w M) :
    M.length ≤ 2 * (matchIncreases inc w).matchList.length := by
  rw [matchIncreases_eq]
  exact (matchingOf_specMatches_isMaximal inc.sorted_fuzzer.nodup inc.sorted_hmm.nodup w
    ).length_le_two_mul hM

/-- The fuzzer events `1, 2` and the HMM events `0, 1` with window `1`: the two crossing
pairs form a matching of the window graph. -/
theorem matchIncreases_half_optimal_of_crossing :
    IsWindowMatching [1, 2] [0, 1] 1 [⟨1, 0, 1⟩, ⟨2, 1, 1⟩] ∧
      ([⟨1, 0, 1⟩, ⟨2, 1, 1⟩] : List Candidate).length ≤
        2 * (matchIncreases ⟨[], [], [1, 2], [0, 1], by decide, by decide⟩ 1).matchList.length := by
  have hM : IsWindowMatching [1, 2] [0, 1] 1 [⟨1, 0, 1⟩, ⟨2, 1, 1⟩] :=
    ⟨by decide, by simp [indexDistance], by decide, by decide⟩
  exact ⟨hM, matchIncreases_half_optimal ⟨[], [], [1, 2], [0, 1], by decide, by decide⟩ 1 hM⟩

/-! ## Exchanging the two curves -/

theorem free_map_swap {acc : List Candidate} {c : Candidate} :
    Free (acc.map Candidate.swap) c.swap ↔ Free acc c := by
  simp only [Free, List.map_map, Function.comp_def, Candidate.swap]
  exact and_comm

theorem acceptStep_map_swap (acc : List Candidate) (c : Candidate) :
    acceptStep (acc.map Candidate.swap) c.swap = (acceptStep acc c).map Candidate.swap := by
  by_cases h : Free acc c
  · rw [acceptStep_of_free h, acceptStep_of_free (free_map_swap.mpr h), List.map_append]
    rfl
  · rw [acceptStep_of_not_free h, acceptStep_of_not_free (mt free_map_swap.mp h)]

theorem foldl_acceptStep_map_swap (L acc : List Candidate) :
    (L.map Candidate.swap).foldl acceptStep (acc.map Candidate.swap) =
      (L.foldl acceptStep acc).map Candidate.swap := by
  induction L generalizing acc with
  | nil => rfl
  | cons c L ih => simp only [List.map_cons, List.foldl_cons, acceptStep_map_swap, ih]

/-- On two candidates sharing an endpoint, the order `(d, b, a)` agrees with `(d, a, b)`. -/
theorem matchOrder_lt_of_swap {x y : Candidate} (hc : Conflict x y)
    (h : matchOrder x.swap < matchOrder y.swap) : matchOrder x < matchOrder y := by
  rw [matchOrder_lt_iff] at h ⊢
  simp only [Candidate.swap] at h
  unfold Conflict at hc
  omega

/-- Exchanging the event lists exchanges the endpoints of the spec's matches, up to order:
its two candidate orders, `(d, a, b)` and `(d, b, a)`, agree on every two candidates that
share an endpoint. -/
theorem specMatches_swap_perm {EA EB : List ℕ} (hA : EA.Sorted (· < ·))
    (hB : EB.Sorted (· < ·)) (w : ℚ) :
    (specMatches EB EA w).Perm ((specMatches EA EB w).map Candidate.swap) := by
  have h₁ := specSortedCandidates_pairwise hA hB w
  have h₂ : ((specSortedCandidates EB EA w).map Candidate.swap).Pairwise fun x y =>
      matchOrder x.swap < matchOrder y.swap := by
    simpa [List.pairwise_map] using specSortedCandidates_pairwise hB hA w
  have hmem : ∀ c, c ∈ (specSortedCandidates EB EA w).map Candidate.swap ↔
      c ∈ specSortedCandidates EA EB w := fun c => by
    rw [mem_specSortedCandidates, ← mem_windowCandidates_swap, ← mem_specSortedCandidates]
    exact ⟨fun h => by obtain ⟨c', hc', rfl⟩ := List.mem_map.mp h; exact hc',
      fun h => List.mem_map.mpr ⟨_, h, Candidate.swap_swap c⟩⟩
  have hnodup₁ : (specSortedCandidates EA EB w).Nodup :=
    h₁.imp fun h hxy => by subst hxy; exact lt_irrefl _ h
  have hnodup₂ : ((specSortedCandidates EB EA w).map Candidate.swap).Nodup :=
    h₂.imp fun h hxy => by subst hxy; exact lt_irrefl _ h
  have hperm := (List.perm_ext_iff_of_nodup hnodup₁ hnodup₂).mpr fun c => (hmem c).symm
  have hagree := foldl_acceptStep_perm_of_agree (fun _ _ => lt_asymm) hperm
    (h₁.imp fun {x y} h (_ : Conflict x y) => h) (h₂.imp fun h hc => matchOrder_lt_of_swap hc h) []
  have hback : specMatches EB EA w =
      (((specSortedCandidates EB EA w).map Candidate.swap).foldl acceptStep []).map
        Candidate.swap := by
    rw [← foldl_acceptStep_map_swap, List.map_map]
    simp [specMatches, Function.comp_def]
  rw [hback]
  exact (hagree.map Candidate.swap).symm

end HmmCoverage
