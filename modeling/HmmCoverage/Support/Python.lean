import Mathlib.Data.Rat.Defs
import Mathlib.Data.List.Basic

/-!
# The Python runtime behaviour the pipeline relies on

The coverage and similarity code is plain Python over lists and NumPy arrays.  Exact
rationals stand in for its floats, and the few operations that can raise are modelled in
`Except PyError`: true division (`ZeroDivisionError`), list subscripts and item assignment
(`IndexError`), `np.gradient` on an array that is too short and an unknown preprocessor type
(`ValueError`), a failed `assert` (`AssertionError`), a method the loaded object does not
have (`AttributeError`), and a missing dictionary key (`KeyError`).  A `dict` is the list of
its items in insertion order, the order in which Python iterates it.

Indices are natural numbers throughout: every index the modelled code computes is a sum
of products of state indices, positions and lengths, none of which is negative, so
Python's wrap-around for negative subscripts never applies.
-/

namespace HmmCoverage

/-- The exceptions the modelled code can raise. -/
inductive PyError where
  | indexError
  | zeroDivisionError
  | valueError
  | assertionError
  | attributeError
  | keyError
  deriving DecidableEq, Repr

/-- Python's true division `x / y`, which raises on a zero divisor. -/
def pyDiv (x y : ℚ) : Except PyError ℚ :=
  if y = 0 then .error .zeroDivisionError else .ok (x / y)

/-- The item assignment `xs[i] = v`. -/
def setItem (xs : List α) (i : ℕ) (v : α) : Except PyError (List α) :=
  if i < xs.length then .ok (xs.set i v) else .error .indexError

/-- The subscript `xs[i]`. -/
def getItem (xs : List α) (i : ℕ) : Except PyError α :=
  match xs[i]? with
  | some x => .ok x
  | none => .error .indexError

@[simp] theorem pure_eq_ok {ε α : Type} (x : α) : (pure x : Except ε α) = .ok x := rfl

@[simp] theorem ok_bind {ε α β : Type} (x : α) (f : α → Except ε β) :
    (Except.ok x >>= f) = f x := rfl

@[simp] theorem error_bind {ε α β : Type} (e : ε) (f : α → Except ε β) :
    (Except.error e >>= f) = Except.error e := rfl

/-- A `do` step succeeded iff its first action did and so did the rest. -/
theorem bind_eq_ok {ε α β : Type} {x : Except ε α} {f : α → Except ε β} {b : β} :
    x >>= f = .ok b ↔ ∃ a, x = .ok a ∧ f a = .ok b := by
  cases x <;> simp

@[simp] theorem pyDiv_of_ne_zero {x y : ℚ} (hy : y ≠ 0) : pyDiv x y = .ok (x / y) := by
  simp [pyDiv, hy]

@[simp] theorem pyDiv_zero (x : ℚ) : pyDiv x 0 = .error .zeroDivisionError := by
  simp [pyDiv]

@[simp] theorem setItem_of_lt {xs : List α} {i : ℕ} (v : α) (hi : i < xs.length) :
    setItem xs i v = .ok (xs.set i v) := by
  simp [setItem, hi]

theorem setItem_of_le {xs : List α} {i : ℕ} (v : α) (hi : xs.length ≤ i) :
    setItem xs i v = .error .indexError := by
  simp [setItem, Nat.not_lt.mpr hi]

@[simp] theorem getItem_cons_zero (x : α) (xs : List α) : getItem (x :: xs) 0 = .ok x := by
  simp [getItem]

@[simp] theorem getItem_nil (i : ℕ) : getItem ([] : List α) i = .error .indexError := rfl

theorem getItem_of_lt {xs : List α} {i : ℕ} (hi : i < xs.length) : getItem xs i = .ok xs[i] := by
  simp [getItem, hi]

theorem getItem_eq_ok_getD {xs : List α} {i : ℕ} (hi : i < xs.length) (d : α) :
    getItem xs i = .ok (xs.getD i d) := by
  simp [getItem_of_lt hi, List.getElem?_eq_getElem hi]

theorem getItem_of_le {xs : List α} {i : ℕ} (hi : xs.length ≤ i) :
    getItem xs i = .error .indexError := by
  simp [getItem, List.getElem?_eq_none hi]

/-- A fold whose every step succeeds is the pure fold. -/
theorem foldlM_ok {ε α β : Type} (f : β → α → Except ε β) (g : β → α → β)
    (hfg : ∀ b a, f b a = .ok (g b a)) (l : List α) (b : β) :
    l.foldlM f b = .ok (l.foldl g b) := by
  induction l generalizing b with
  | nil => rfl
  | cons a l ih => simp [hfg, ih]

/-- A map whose every call succeeds is the pure map. -/
theorem mapM_ok {ε α β : Type} (f : α → Except ε β) (g : α → β) (hfg : ∀ a, f a = .ok (g a))
    (l : List α) : l.mapM f = .ok (l.map g) := by
  induction l with
  | nil => rfl
  | cons a l ih =>
    rw [List.mapM_cons, hfg, ih]
    rfl

/-- Two nested loops over a list of lists are one loop over their concatenation. -/
theorem foldlM_flatMap {m : Type → Type} [Monad m] [LawfulMonad m] {α β γ : Type}
    (f : β → α → m β) (g : γ → List α) (l : List γ) (b : β) :
    (l.flatMap g).foldlM f b = l.foldlM (fun b c => (g c).foldlM f b) b := by
  induction l generalizing b with
  | nil => rfl
  | cons c l ih => simp [ih]

/-! ## Dictionaries -/

section Dict

variable {κ ν : Type} [DecidableEq κ]

/-- `d[k] = v`: a present key keeps its place and takes the new value, a new key is added
last. -/
def dictSet (d : List (κ × ν)) (k : κ) (v : ν) : List (κ × ν) :=
  if k ∈ d.map Prod.fst then d.map fun item => if item.1 = k then (k, v) else item
  else d ++ [(k, v)]

/-- `d[k].append(x)` on a dictionary of lists; a missing key raises `KeyError`. -/
def dictAppend (d : List (κ × List ν)) (k : κ) (x : ν) : Except PyError (List (κ × List ν)) :=
  if k ∈ d.map Prod.fst then .ok (d.map fun item => if item.1 = k then (k, item.2 ++ [x]) else item)
  else .error .keyError

theorem dictSet_of_not_mem {d : List (κ × ν)} {k : κ} (hk : k ∉ d.map Prod.fst) (v : ν) :
    dictSet d k v = d ++ [(k, v)] :=
  if_neg hk

theorem dictAppend_of_mem {d : List (κ × List ν)} {k : κ} (hk : k ∈ d.map Prod.fst) (x : ν) :
    dictAppend d k x =
      .ok (d.map fun item => if item.1 = k then (k, item.2 ++ [x]) else item) :=
  if_pos hk

end Dict

end HmmCoverage
