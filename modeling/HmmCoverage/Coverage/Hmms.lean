import HmmCoverage.Support.Python
import Mathlib.Data.Int.Defs
import Mathlib.Order.Basic

/-!
# Fitting a model with retries

`create_model(n_component, data, threshold)` asks pomegranate's `from_samples` for a hidden
Markov model with `n_component - 2` states, because the library adds a start and an end
state.  The fitter is randomised and sometimes raises, so the call is retried until one
attempt succeeds or `threshold` attempts were made.  Numerical errors (`LinAlgError`,
`UFuncTypeError`) are dropped silently, any other `Exception` is printed, and no exception
leaves the loop.  The fitted model is baked and returned; after `threshold` failures the
result is `None`.

The fitter is external.  It is modelled by the outcome of each of its calls, as an arbitrary
sequence indexed by the call number, so that the results below hold for every sequence of
outcomes the randomised fitter may produce.  The `while` loop runs on fuel `threshold`, which
is enough: every pass raises `i` by one, and the loop stops once `i` reaches `threshold`.
-/

namespace HmmCoverage

variable {Model Data : Type}

/-- How one call of `from_samples` ends: with a fitted model, or with an exception that the
loop catches. -/
inductive FitOutcome (Model : Type) where
  | success (model : Model)
  | linAlgError
  | uFuncTypeError
  | otherException

/-- Whether a call returned a model. -/
def FitOutcome.isSuccess : FitOutcome Model → Bool
  | .success _ => true
  | _ => false

/-- The loop variables of `create_model`: `model`, `successful` and `i`, which counts the
iterations, each of which calls `from_samples` once. -/
structure FitState (Model : Type) where
  model : Model
  successful : Bool
  i : ℕ

/-- One pass of the `while` body: call `from_samples` for the `i`-th time; on success keep
the new model and set `successful`, on a caught exception keep the state; then count the
attempt. -/
def fitStep (outcome : ℕ → FitOutcome Model) (s : FitState Model) : FitState Model :=
  match outcome s.i with
  | .success model => ⟨model, true, s.i + 1⟩
  | .linAlgError | .uFuncTypeError => ⟨s.model, s.successful, s.i + 1⟩
  | .otherException => ⟨s.model, s.successful, s.i + 1⟩

/-- `while not successful and i < threshold`, for at most `fuel` iterations. -/
def fitLoop (outcome : ℕ → FitOutcome Model) (threshold : ℤ) :
    ℕ → FitState Model → FitState Model
  | 0, s => s
  | fuel + 1, s =>
    if s.successful = false ∧ (s.i : ℤ) < threshold then
      fitLoop outcome threshold fuel (fitStep outcome s)
    else s

/-- The loop of `create_model` from `model = HiddenMarkovModel()` (`blank`), where the
`i`-th call of `from_samples(MultivariateGaussianDistribution, n_components=no_hmm, X=data)`
ends with `fromSamples noHmm data i`. -/
def createModelRun (fromSamples : ℤ → Data → ℕ → FitOutcome Model) (blank : Model)
    (nComponent : ℤ) (data : Data) (threshold : ℤ) : FitState Model :=
  let noHmm := nComponent - 2
  fitLoop (fromSamples noHmm data) threshold threshold.toNat ⟨blank, false, 0⟩

/-- `create_model(n_component, data, threshold)`: the baked model of the first successful
attempt, or `None`. -/
def createModel (fromSamples : ℤ → Data → ℕ → FitOutcome Model) (bake : Model → Model)
    (blank : Model) (nComponent : ℤ) (data : Data) (threshold : ℤ := 20) : Option Model :=
  let s := createModelRun fromSamples blank nComponent data threshold
  if s.successful then some (bake s.model) else none

/-! ## Runs of the loop -/

section Loop

variable {outcome : ℕ → FitOutcome Model} {threshold : ℤ}

theorem fitLoop_of_successful (fuel : ℕ) {s : FitState Model} (hs : s.successful = true) :
    fitLoop outcome threshold fuel s = s := by
  cases fuel <;> simp [fitLoop, hs]

/-- A failed attempt made while the loop condition holds only counts the attempt. -/
theorem fitLoop_of_failure (fuel : ℕ) {s : FitState Model} (hs : s.successful = false)
    (hi : (s.i : ℤ) < threshold) (hfail : (outcome s.i).isSuccess = false) :
    fitLoop outcome threshold (fuel + 1) s =
      fitLoop outcome threshold fuel ⟨s.model, false, s.i + 1⟩ := by
  have hstep : fitStep outcome s = ⟨s.model, false, s.i + 1⟩ := by
    unfold fitStep
    split <;> simp_all [FitOutcome.isSuccess]
  rw [fitLoop, if_pos ⟨hs, hi⟩, hstep]

/-- A successful attempt made while the loop condition holds ends the loop. -/
theorem fitLoop_of_success (fuel : ℕ) {s : FitState Model} (hs : s.successful = false)
    (hi : (s.i : ℤ) < threshold) {m : Model} (hm : outcome s.i = .success m) :
    fitLoop outcome threshold (fuel + 1) s = ⟨m, true, s.i + 1⟩ := by
  rw [fitLoop, if_pos ⟨hs, hi⟩, fitStep, hm]
  exact fitLoop_of_successful fuel rfl

/-- `n` failed attempts in a row, each made while the loop condition holds, take `n`
iterations and leave only the counter changed. -/
theorem fitLoop_of_failures (n fuel : ℕ) (s : FitState Model) (hs : s.successful = false)
    (hi : ∀ j < n, ((s.i + j : ℕ) : ℤ) < threshold)
    (hfail : ∀ j < n, (outcome (s.i + j)).isSuccess = false) :
    fitLoop outcome threshold (n + fuel) s =
      fitLoop outcome threshold fuel ⟨s.model, false, s.i + n⟩ := by
  induction n generalizing s with
  | zero => cases s; simp_all
  | succ n ih =>
    have hshift : ∀ j, s.i + 1 + j = s.i + (j + 1) := fun j => by omega
    rw [Nat.add_right_comm, fitLoop_of_failure _ hs (by simpa using hi 0 (by omega))
        (by simpa using hfail 0 (by omega)),
      ih _ rfl (fun j hj => by simpa [hshift] using hi (j + 1) (by omega))
        (fun j hj => by simpa [hshift] using hfail (j + 1) (by omega)),
      hshift]

end Loop

/-! ## What `create_model` returns -/

/-- For every sequence of outcomes of the fitter and every threshold `t`: when the first
successful call is call number `k` (counting from `0`), `create_model` calls `from_samples`
`k + 1` times and returns that call's model, baked, if `k < t`, and calls it `max t 0` times
and returns `None` otherwise; when no call succeeds, it calls it `max t 0` times and returns
`None`.  Every exception of `from_samples` is caught. -/
theorem createModel_spec (fromSamples : ℤ → Data → ℕ → FitOutcome Model)
    (bake : Model → Model) (blank : Model) (nComponent : ℤ) (data : Data) (t : ℤ) :
    (∀ k m, fromSamples (nComponent - 2) data k = .success m →
      (∀ j < k, (fromSamples (nComponent - 2) data j).isSuccess = false) →
        ((k : ℤ) < t → (createModelRun fromSamples blank nComponent data t).i = k + 1 ∧
            createModel fromSamples bake blank nComponent data t = some (bake m)) ∧
        (t ≤ k → (createModelRun fromSamples blank nComponent data t).i = t.toNat ∧
            createModel fromSamples bake blank nComponent data t = none)) ∧
      ((∀ k, (fromSamples (nComponent - 2) data k).isSuccess = false) →
        (createModelRun fromSamples blank nComponent data t).i = t.toNat ∧
          createModel fromSamples bake blank nComponent data t = none) := by
  set outcome := fromSamples (nComponent - 2) data
  have hrun : createModelRun fromSamples blank nComponent data t =
      fitLoop outcome t t.toNat ⟨blank, false, 0⟩ := rfl
  -- `n` failures from the start, each before the threshold
  have hfailures : ∀ n fuel, n ≤ t.toNat → (∀ j < n, (outcome j).isSuccess = false) →
      fitLoop outcome t (n + fuel) ⟨blank, false, 0⟩ = fitLoop outcome t fuel ⟨blank, false, n⟩ :=
    fun n fuel hn hfail => by
      simpa using fitLoop_of_failures n fuel ⟨blank, false, 0⟩ rfl
        (fun j hj => by simp only [zero_add]; omega) (fun j hj => by simpa using hfail j hj)
  -- `t` failures in a row exhaust the loop
  have hexhaust : (∀ j < t.toNat, (outcome j).isSuccess = false) →
      createModelRun fromSamples blank nComponent data t = ⟨blank, false, t.toNat⟩ := by
    intro hfail
    rw [hrun, ← Nat.add_zero t.toNat, hfailures _ 0 le_rfl hfail, Nat.add_zero]
    rfl
  refine ⟨fun k m hm hfirst => ⟨fun hk => ?_, fun hk => ?_⟩, fun hnone => ?_⟩
  · -- the `k` failures, then the success
    have hsuccess : createModelRun fromSamples blank nComponent data t = ⟨m, true, k + 1⟩ := by
      rw [hrun, show t.toNat = k + (t.toNat - k - 1 + 1) by omega,
        hfailures k _ (by omega) hfirst]
      exact fitLoop_of_success _ rfl (by simpa using hk) hm
    simp [createModel, hsuccess]
  · have hfail := hexhaust fun j hj => hfirst j (by omega)
    simp [createModel, hfail]
  · have hfail := hexhaust fun j _ => hnone j
    simp [createModel, hfail]

end HmmCoverage
