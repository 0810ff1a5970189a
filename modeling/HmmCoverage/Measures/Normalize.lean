import HmmCoverage.Support.Python
import Mathlib.Data.List.Sort
import Mathlib.Algebra.Order.Field.Rat
import Mathlib.Algebra.Order.Field.Basic
import Mathlib.Tactic.Linarith

/-!
# Normalised curves, their gradients and their growth events

The first half of `calculate_coverage_similarity` normalises both coverage curves, takes
NumPy's gradient of each and lists, over the range both gradients share, the indices where
the gradient is positive.  Those indices are the growth events that the greedy matching
pairs up.

`normalize` prepends a synthetic `0.0`.  Its two branches do not agree on whether that
point is kept: the flat branch returns it, the min-max branch drops it, so two curves of one
length can normalise to lists of different lengths.
-/

namespace HmmCoverage

/-! ## `normalize` -/

/-- `normalize(curve)`: prepend `0.0`; if the extended curve is flat return `0.0` followed
by `1.0` for every input point, otherwise min-max normalise the input points. -/
def normalize (curve : List ℚ) : List ℚ :=
  let minVal := curve.foldl min 0
  let maxVal := curve.foldl max 0
  if minVal = maxVal then 0 :: List.replicate curve.length 1
  else curve.map fun x => (x - minVal) / (maxVal - minVal)

section FoldMinMax

variable {c : List ℚ}

theorem foldl_min_le_init (c : List ℚ) (a : ℚ) : c.foldl min a ≤ a := by
  induction c generalizing a with
  | nil => exact le_rfl
  | cons x c ih => exact (ih _).trans (min_le_left a x)

theorem foldl_min_le {x : ℚ} (hx : x ∈ c) (a : ℚ) : c.foldl min a ≤ x := by
  induction c generalizing a with
  | nil => simp at hx
  | cons y c ih =>
    rcases List.mem_cons.mp hx with rfl | hx
    · exact (foldl_min_le_init c _).trans (min_le_right a x)
    · exact ih hx _

theorem le_foldl_max_init (c : List ℚ) (a : ℚ) : a ≤ c.foldl max a := by
  induction c generalizing a with
  | nil => exact le_rfl
  | cons x c ih => exact (le_max_left a x).trans (ih _)

theorem le_foldl_max {x : ℚ} (hx : x ∈ c) (a : ℚ) : x ≤ c.foldl max a := by
  induction c generalizing a with
  | nil => simp at hx
  | cons y c ih =>
    rcases List.mem_cons.mp hx with rfl | hx
    · exact (le_max_right a x).trans (le_foldl_max_init c _)
    · exact ih hx _

end FoldMinMax

/-- The flat branch keeps the synthetic point, the min-max branch drops it. -/
theorem length_normalize (curve : List ℚ) :
    (normalize curve).length =
      if curve.foldl min 0 = curve.foldl max 0 then curve.length + 1 else curve.length := by
  by_cases h : curve.foldl min 0 = curve.foldl max 0 <;> simp [normalize, h]

/-- Two curves of length two normalise to lists of lengths three and two. -/
theorem length_normalize_flat_ne_minMax :
    (normalize [0, 0]).length = 3 ∧ (normalize [0, 1]).length = 2 := by
  norm_num [normalize]

/-- Every normalised value lies in `[0, 1]`. -/
theorem normalize_mem_unit (curve : List ℚ) : ∀ x ∈ normalize curve, 0 ≤ x ∧ x ≤ 1 := by
  by_cases hne : curve.foldl min 0 = curve.foldl max 0
  · simp only [normalize, hne, if_true]
    intro x hx
    rcases List.mem_cons.mp hx with rfl | hx
    · norm_num
    · rw [List.eq_of_mem_replicate hx]
      norm_num
  · simp only [normalize, hne, if_false, List.mem_map]
    rintro _ ⟨x, hx, rfl⟩
    have hlo := foldl_min_le hx 0
    have hhi := le_foldl_max hx 0
    have hpos : 0 < curve.foldl max 0 - curve.foldl min 0 :=
      sub_pos.mpr (lt_of_le_of_ne (hlo.trans hhi) hne)
    exact ⟨div_nonneg (sub_nonneg.mpr hlo) hpos.le,
      (div_le_one hpos).mpr (sub_le_sub_right hhi _)⟩

/-! ## Rescaling a curve -/

section Scale

variable {k : ℚ} (hk : 0 < k)
include hk

theorem foldl_min_map_mul (c : List ℚ) (a : ℚ) :
    (c.map (k * ·)).foldl min (k * a) = k * c.foldl min a := by
  induction c generalizing a with
  | nil => rfl
  | cons x c ih => rw [List.map_cons, List.foldl_cons, ← mul_min_of_nonneg _ _ hk.le, ih,
      List.foldl_cons]

theorem foldl_max_map_mul (c : List ℚ) (a : ℚ) :
    (c.map (k * ·)).foldl max (k * a) = k * c.foldl max a := by
  induction c generalizing a with
  | nil => rfl
  | cons x c ih => rw [List.map_cons, List.foldl_cons, ← mul_max_of_nonneg _ _ hk.le, ih,
      List.foldl_cons]

/-- A positive factor scales the synthetic `0.0`, the minimum and the maximum alike, so
`normalize` divides it out in both branches. -/
theorem normalize_map_mul (c : List ℚ) : normalize (c.map (k * ·)) = normalize c := by
  have hmin : (c.map (k * ·)).foldl min 0 = k * c.foldl min 0 := by
    simpa using foldl_min_map_mul hk c 0
  have hmax : (c.map (k * ·)).foldl max 0 = k * c.foldl max 0 := by
    simpa using foldl_max_map_mul hk c 0
  simp only [normalize, hmin, hmax, mul_right_inj' hk.ne', List.length_map, List.map_map]
  split
  · rfl
  · refine List.map_congr_left fun x _ => ?_
    simp only [Function.comp_apply, ← mul_sub, mul_div_mul_left _ _ hk.ne']

end Scale

/-! ## `np.gradient` -/

/-- Entry `i` of `np.gradient(f)` for unit spacing and `edge_order=1`: one-sided differences
at both ends and central differences inside. -/
def gradientAt (f : List ℚ) (i : ℕ) : ℚ :=
  if i = 0 then f.getD 1 0 - f.getD 0 0
  else if i + 1 = f.length then f.getD i 0 - f.getD (i - 1) 0
  else (f.getD (i + 1) 0 - f.getD (i - 1) 0) / 2

/-- `np.gradient(f)` of a one-dimensional array; fewer than two points raise. -/
def gradient (f : List ℚ) : Except PyError (List ℚ) :=
  if f.length < 2 then .error .valueError
  else .ok ((List.range f.length).map (gradientAt f))

theorem gradient_of_le {f : List ℚ} (hf : 2 ≤ f.length) :
    gradient f = .ok ((List.range f.length).map (gradientAt f)) := by
  simp [gradient, Nat.not_lt.mpr hf]

theorem length_of_gradient_eq {f g : List ℚ} (h : gradient f = .ok g) : g.length = f.length := by
  unfold gradient at h
  split at h <;> cases h
  simp

theorem getD_of_gradient_eq {f g : List ℚ} (h : gradient f = .ok g) {i : ℕ} (hi : i < f.length) :
    g.getD i 0 = gradientAt f i := by
  unfold gradient at h
  split at h <;> cases h
  simp [hi]

/-- Where NumPy's gradient of `n` is positive: `n[1] > n[0]` at the first index,
`n[L - 1] > n[L - 2]` at the last one, and `n[i + 1] > n[i - 1]` in between. -/
def gradientRises (n : List ℚ) (i : ℕ) : Prop :=
  if i = 0 then n.getD 0 0 < n.getD 1 0
  else if i + 1 = n.length then n.getD (i - 1) 0 < n.getD i 0
  else n.getD (i - 1) 0 < n.getD (i + 1) 0

theorem gradientAt_pos_iff (f : List ℚ) (i : ℕ) : 0 < gradientAt f i ↔ gradientRises f i := by
  unfold gradientAt gradientRises
  split_ifs <;> simp only [div_pos_iff_of_pos_right (two_pos : (0 : ℚ) < 2), sub_pos]

theorem getD_mem_unit {f : List ℚ} (hf : ∀ x ∈ f, 0 ≤ x ∧ x ≤ 1) (i : ℕ) :
    0 ≤ f.getD i 0 ∧ f.getD i 0 ≤ 1 := by
  rw [List.getD_eq_getElem?_getD]
  cases h : f[i]? with
  | none => norm_num
  | some x => exact hf x (List.getElem?_mem h)

/-- The gradient of a curve with values in `[0, 1]` has values in `[-1, 1]`. -/
theorem gradientAt_mem {f : List ℚ} (hf : ∀ x ∈ f, 0 ≤ x ∧ x ≤ 1) (i : ℕ) :
    -1 ≤ gradientAt f i ∧ gradientAt f i ≤ 1 := by
  have h0 := getD_mem_unit hf
  unfold gradientAt
  split_ifs
  · constructor <;> linarith only [h0 0, h0 1]
  · constructor <;> linarith only [h0 i, h0 (i - 1)]
  · constructor <;> linarith only [h0 (i + 1), h0 (i - 1)]

/-! ## Growth events -/

/-- `[1 if gradient[i] > 0 else 0 for i in range(gradient_number)]`. -/
def increaseBitmap (gradient : List ℚ) (gradientNumber : ℕ) : List ℕ :=
  (List.range gradientNumber).map fun i => if gradient.getD i 0 > 0 then 1 else 0

/-- `[i for i in range(gradient_number) if bitmap[i] > 0]`. -/
def increaseIndices (bitmap : List ℕ) (gradientNumber : ℕ) : List ℕ :=
  (List.range gradientNumber).filter fun i => bitmap.getD i 0 > 0

theorem mem_increaseIndices {g : List ℚ} {n e : ℕ} :
    e ∈ increaseIndices (increaseBitmap g n) n ↔ e < n ∧ 0 < g.getD e 0 := by
  simp only [increaseIndices, increaseBitmap, List.mem_filter, List.mem_range,
    decide_eq_true_eq, and_congr_right_iff]
  intro he
  simp only [he, List.getD_eq_getElem?_getD, List.getElem?_map, List.getElem?_range, Option.map_some',
    Option.getD_some]
  split <;> simp_all

theorem sorted_increaseIndices (bitmap : List ℕ) (n : ℕ) :
    (increaseIndices bitmap n).Sorted (· < ·) :=
  (List.sorted_lt_range n).filter _

/-- What `calculate_coverage_similarity` has computed when matching starts: both gradients
and both ascending lists of growth-event indices. -/
structure Increases where
  gradientFuzzer : List ℚ
  gradientHmm : List ℚ
  indicesFuzzer : List ℕ
  indicesHmm : List ℕ
  sorted_fuzzer : indicesFuzzer.Sorted (· < ·)
  sorted_hmm : indicesHmm.Sorted (· < ·)

/-- Lines 56–72 of `calculate_coverage_similarity`, from the two gradients on: the
increase bitmaps and event indices over `gradient_number`, the shorter gradient's length. -/
def increasesOf (gradientFuzzer gradientHmm : List ℚ) : Increases :=
  let gradientNumber := min gradientFuzzer.length gradientHmm.length
  let bitmapFuzzer := increaseBitmap gradientFuzzer gradientNumber
  let bitmapHmm := increaseBitmap gradientHmm gradientNumber
  ⟨gradientFuzzer, gradientHmm, increaseIndices bitmapFuzzer gradientNumber,
    increaseIndices bitmapHmm gradientNumber, sorted_increaseIndices _ _,
    sorted_increaseIndices _ _⟩

/-- Lines 50–72 of `calculate_coverage_similarity`: normalise and differentiate both curves,
then collect their growth events. -/
def findIncreases (fuzzer hmm : List ℚ) : Except PyError Increases := do
  let fuzzer := normalize fuzzer
  let hmm := normalize hmm
  let gradientFuzzer ← gradient fuzzer
  let gradientHmm ← gradient hmm
  pure (increasesOf gradientFuzzer gradientHmm)

/-- The same data with the roles of the two curves exchanged. -/
def Increases.swap (inc : Increases) : Increases :=
  ⟨inc.gradientHmm, inc.gradientFuzzer, inc.indicesHmm, inc.indicesFuzzer, inc.sorted_hmm,
    inc.sorted_fuzzer⟩

theorem gradient_eq_error {f : List ℚ} {e : PyError} (h : gradient f = .error e) :
    e = .valueError := by
  unfold gradient at h
  split at h <;> cases h
  rfl

theorem increasesOf_swap (gF gH : List ℚ) : increasesOf gH gF = (increasesOf gF gH).swap := by
  simp only [increasesOf, Increases.swap, min_comm gH.length]

/-- Passing the curves the other way round swaps the roles in what is computed, and raises
exactly when the original order raises. -/
theorem findIncreases_swap (A B : List ℚ) :
    findIncreases B A = (findIncreases A B).map Increases.swap := by
  cases hA : gradient (normalize A) with
  | error eA =>
    cases hB : gradient (normalize B) with
    | error eB => simp [findIncreases, hA, hB, Except.map, gradient_eq_error hA, gradient_eq_error hB]
    | ok gH => simp [findIncreases, hA, hB, Except.map]
  | ok gF =>
    cases hB : gradient (normalize B) with
    | error eB => simp [findIncreases, hA, hB, Except.map]
    | ok gH => simp [findIncreases, hA, hB, Except.map, increasesOf_swap gF gH]

theorem findIncreases_eq_ok {A B : List ℚ} {inc : Increases} (h : findIncreases A B = .ok inc) :
    ∃ gF gH, gradient (normalize A) = .ok gF ∧ gradient (normalize B) = .ok gH ∧
      inc = increasesOf gF gH := by
  simp only [findIncreases, bind_eq_ok, pure_eq_ok, Except.ok.injEq] at h
  obtain ⟨gF, hF, gH, hH, rfl⟩ := h
  exact ⟨gF, gH, hF, hH, rfl⟩

/-- A normalised curve of fewer than two points makes `np.gradient` raise. -/
theorem findIncreases_of_short {A B : List ℚ}
    (h : (normalize A).length < 2 ∨ (normalize B).length < 2) :
    findIncreases A B = .error .valueError := by
  have hshort : ∀ c : List ℚ, c.length < 2 → gradient c = .error .valueError := fun c hc => by
    simp [gradient, hc]
  rcases h with h | h
  · simp [findIncreases, hshort _ h]
  · cases hA : gradient (normalize A) with
    | error e => simp [findIncreases, hA, gradient_eq_error hA]
    | ok gF => simp [findIncreases, hA, hshort _ h]

theorem findIncreases_of_normalize_length {A B : List ℚ} (hA : 2 ≤ (normalize A).length)
    (hB : 2 ≤ (normalize B).length) : ∃ inc, findIncreases A B = .ok inc := by
  simp only [findIncreases, gradient_of_le hA, gradient_of_le hB, ok_bind, pure_eq_ok,
    Except.ok.injEq, exists_eq']

/-- Curves of at least two points always get their events computed. -/
theorem findIncreases_of_length {A B : List ℚ} (hA : 2 ≤ A.length) (hB : 2 ≤ B.length) :
    ∃ inc, findIncreases A B = .ok inc := by
  have hlen : ∀ c : List ℚ, 2 ≤ c.length → 2 ≤ (normalize c).length := fun c hc => by
    rw [length_normalize]
    split <;> omega
  exact findIncreases_of_normalize_length (hlen A hA) (hlen B hB)

/-- At every event of either curve the gradient lies in `(0, 1]`. -/
def Increases.EventsInUnit (inc : Increases) : Prop :=
  (∀ e ∈ inc.indicesFuzzer, 0 < inc.gradientFuzzer.getD e 0 ∧ inc.gradientFuzzer.getD e 0 ≤ 1) ∧
    ∀ e ∈ inc.indicesHmm, 0 < inc.gradientHmm.getD e 0 ∧ inc.gradientHmm.getD e 0 ≤ 1

theorem gradient_getD_le_one {c g : List ℚ} (hg : gradient (normalize c) = .ok g) (e : ℕ) :
    g.getD e 0 ≤ 1 := by
  unfold gradient at hg
  split at hg
  · cases hg
  · cases hg
    rw [List.getD_eq_getElem?_getD, List.getElem?_map]
    cases (List.range (normalize c).length)[e]? with
    | none => norm_num
    | some i => exact (gradientAt_mem (normalize_mem_unit c) i).2

theorem findIncreases_eventsInUnit {A B : List ℚ} {inc : Increases}
    (h : findIncreases A B = .ok inc) : inc.EventsInUnit := by
  obtain ⟨gF, gH, hF, hH, rfl⟩ := findIncreases_eq_ok h
  refine ⟨fun e he => ⟨(mem_increaseIndices.mp he).2, gradient_getD_le_one hF e⟩,
    fun e he => ⟨(mem_increaseIndices.mp he).2, gradient_getD_le_one hH e⟩⟩

/-- Every event lies below the lengths of both gradients. -/
theorem lt_length_of_mem_indices {A B : List ℚ} {inc : Increases} (h : findIncreases A B = .ok inc) :
    (∀ e ∈ inc.indicesFuzzer, e < inc.gradientFuzzer.length ∧ e < inc.gradientHmm.length) ∧
      ∀ e ∈ inc.indicesHmm, e < inc.gradientFuzzer.length ∧ e < inc.gradientHmm.length := by
  obtain ⟨gF, gH, -, -, rfl⟩ := findIncreases_eq_ok h
  constructor <;> intro e he <;> exact lt_min_iff.mp (mem_increaseIndices.mp he).1

/-- The growth events of one side are the indices below `gradient_number` where the
gradient of its normalised curve rises. -/
theorem mem_increaseIndices_gradient {c g : List ℚ} (hg : gradient (normalize c) = .ok g)
    {n : ℕ} (hn : n ≤ g.length) (i : ℕ) :
    i ∈ increaseIndices (increaseBitmap g n) n ↔ i < n ∧ gradientRises (normalize c) i := by
  rw [mem_increaseIndices, ← gradientAt_pos_iff, and_congr_right_iff]
  intro hi
  have hlen := length_of_gradient_eq hg
  rw [getD_of_gradient_eq hg (by omega)]

/-! ## Two small curves

The ramp `[0, 1]` and the flat curve `[1, 1]` both normalise to themselves.  NumPy's gradient
rises at both points of the ramp and nowhere on the flat curve. -/

theorem normalize_ramp : normalize [0, 1] = [0, 1] := by
  norm_num [normalize]

theorem findIncreases_ramp :
    findIncreases [0, 1] [0, 1] = .ok (increasesOf [1, 1] [1, 1]) ∧
      findIncreases [0, 1] [1, 1] = .ok (increasesOf [1, 1] [0, 0]) := by
  have hflat : normalize [1, 1] = [1, 1] := by norm_num [normalize]
  constructor <;>
    norm_num [findIncreases, normalize_ramp, hflat, gradient, gradientAt, List.range_succ]

theorem increasesOf_ramp :
    (increasesOf [1, 1] [1, 1]).indicesFuzzer = [0, 1] ∧
      (increasesOf [1, 1] [0, 0]).indicesFuzzer = [0, 1] ∧
      (increasesOf [1, 1] [0, 0]).indicesHmm = [] := by
  simp [increasesOf, increaseIndices, increaseBitmap, List.range_succ]

/-- The events of each curve are the indices below `gradient_number` where NumPy's
gradient of its normalised curve `n` rises (a central difference inside, a one-sided one at
the two ends), so a curve whose normalised form has length `L` has at most `L` events. -/
theorem growthEvents_eq_gradientRises {A B : List ℚ} {inc : Increases}
    (h : findIncreases A B = .ok inc) :
    let gradientNumber := min (normalize A).length (normalize B).length
    (∀ i, i ∈ inc.indicesFuzzer ↔ i < gradientNumber ∧ gradientRises (normalize A) i) ∧
      (∀ i, i ∈ inc.indicesHmm ↔ i < gradientNumber ∧ gradientRises (normalize B) i) ∧
      inc.indicesFuzzer.length ≤ (normalize A).length ∧
      inc.indicesHmm.length ≤ (normalize B).length := by
  obtain ⟨gF, gH, hF, hH, rfl⟩ := findIncreases_eq_ok h
  have hlenF := length_of_gradient_eq hF
  have hlenH := length_of_gradient_eq hH
  have hcount : ∀ (b : List ℕ) (m : ℕ), (increaseIndices b m).length ≤ m := fun b m =>
    (List.length_filter_le _ _).trans (List.length_range m).le
  simp only [increasesOf, ← hlenF, ← hlenH]
  exact ⟨mem_increaseIndices_gradient hF (min_le_left _ _),
    mem_increaseIndices_gradient hH (min_le_right _ _),
    (hcount _ _).trans (min_le_left _ _), (hcount _ _).trans (min_le_right _ _)⟩

theorem growthEvents_eq_gradientRises_of_ramp :
    findIncreases [0, 1] [0, 1] = .ok (increasesOf [1, 1] [1, 1]) ∧
      (increasesOf [1, 1] [1, 1]).indicesFuzzer.length ≤ (normalize [0, 1]).length :=
  ⟨findIncreases_ramp.1, (growthEvents_eq_gradientRises findIncreases_ramp.1).2.2.1⟩

/-- Spec §3's growth events of a normalised curve: the indices `i` with `n[i + 1] > n[i]`. -/
def forwardDifferenceIncreases (n : List ℚ) : List ℕ :=
  (List.range (n.length - 1)).filter fun i => n.getD i 0 < n.getD (i + 1) 0

/-- The curve `[0, 1]` normalises to itself; the code marks both of its indices as events,
while its only forward-difference increase is at index `0`. -/
theorem growthEvents_ne_forwardDifference :
    (findIncreases [0, 1] [0, 1]).map Increases.indicesFuzzer = .ok [0, 1] ∧
      normalize [0, 1] = [0, 1] ∧ forwardDifferenceIncreases (normalize [0, 1]) = [0] := by
  refine ⟨by rw [findIncreases_ramp.1, ← increasesOf_ramp.1]; rfl, normalize_ramp, ?_⟩
  simp [normalize_ramp, forwardDifferenceIncreases, List.range_succ]

/-- A curve compared with itself has the same events and gradients on both sides. -/
theorem findIncreases_self {A : List ℚ} {inc : Increases} (h : findIncreases A A = .ok inc) :
    inc.indicesFuzzer = inc.indicesHmm ∧ inc.gradientFuzzer = inc.gradientHmm := by
  obtain ⟨gF, gH, hF, hH, rfl⟩ := findIncreases_eq_ok h
  obtain rfl : gF = gH := by rw [hF] at hH; exact Except.ok.inj hH
  exact ⟨rfl, rfl⟩

end HmmCoverage
