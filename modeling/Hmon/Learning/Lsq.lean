import Hmon.Learning.Linreg
import Hmon.Monitor.Values

/-!
# Least squares of the window (`lsq_fit` in `learning.c`)

The first event of each row is the target, the others are its features.

* `targets`, `features` : the views that `lsq_fit` takes of the events;
* `lsqFit` : the samples and the linear model afterwards, and the divisor of the division that it makes;
* `lsqDivisors_iff` : **the divisor is not zero exactly when two targets differ**.
-/

namespace Hmon
open Lib

/-- The row length of `to_gsl_matrix(monitor->events, m, monitor->n_events+1)`. Its offsets are `size_t`. -/
def Sizes.tda (d : Sizes) : Nat := u32 (d.nEvents + 1)

/-- `monitor->n_events-1`. -/
def Sizes.nFeatures (d : Sizes) : Nat := u32 (d.nEvents + (2 ^ 32 - 1))

/-- The first column. -/
def targets (d : Sizes) (events : List ℚ) : List ℚ :=
  (List.range d.rows).map fun r => events.getD (r * d.tda) 0

/-- The columns between the first one and the timestamp. -/
def features (d : Sizes) (events : List ℚ) : List (List ℚ) :=
  (List.range d.rows).map fun r => (List.range d.nFeatures).map fun j => events.getD (r * d.tda + 1 + j) 0

/-- What `lsq_fit` leaves: the samples, `monitor->userdata` and the divisor of its division. -/
structure Fitted (S : Type) where
  samples : List ℚ
  userdata : Option (Lm S)
  divisor : ℚ

/-- `lsq_fit`; `none` where the library's error handler ends the program. -/
def lsqFit {S : Type} (g : Gsl S) (d : Sizes) (userdata : Option (Lm S)) (events samples : List ℚ) :
    Option (Fitted S) :=
  if g.builds d.rows d.nFeatures then
    let theta := (List.range d.nFeatures).map fun j => samples.getD (1 + j) 0
    let y := targets d events
    let x := features d events
    let yMean := g.statsMean y
    let yPred := g.vectorAddConstant y (-yMean)
    let ssTot := g.blasDdot yPred yPred
    let yPred := g.vectorAddConstant yPred yMean
    let yPred := g.blasDgemv .noTrans 1 x theta (-1) yPred
    let ssRes := g.blasDdot yPred yPred
    let samples := samples.set 0 (1 - ssRes / ssTot)
    if d.last = u32 (d.window + (2 ^ 32 - 1)) then
      let lm := userdata.getD (newLinearModel g d.nFeatures defaultLambda)
      let (theta, lm) := linearModelFit g lm d.nFeatures x theta y
      some ⟨writeCells samples 1 theta, some lm, ssTot⟩
    else some ⟨samples, userdata, ssTot⟩
  else none

/-! ## The divisor -/

section Divisor
variable {S : Type} {g : Gsl S} {d : Sizes} {userdata : Option (Lm S)} {events samples : List ℚ}

variable (d userdata events samples) in
/-- The library either ends the program, or `lsq_fit` divides by the sum of the squared deviations. -/
theorem lsqFit_cases (hg : g.Documented) :
    (g.builds d.rows d.nFeatures = false ∧ lsqFit g d userdata events samples = none) ∨
    (g.builds d.rows d.nFeatures = true ∧ ∃ fitted, lsqFit g d userdata events samples = some fitted ∧
      fitted.divisor = ((targets d events).map fun y => (y - mean (targets d events)) ^ 2).sum) := by
  have hdivisor : (let yPred := g.vectorAddConstant (targets d events) (-g.statsMean (targets d events));
      g.blasDdot yPred yPred) = ((targets d events).map fun y => (y - mean (targets d events)) ^ 2).sum := by
    simp only [hg.vectorAddConstant]
    rw [hg.blasDdot _ _ rfl, List.zipWith_self, List.map_map]
    congr 1
    refine List.map_congr_left fun y hy => ?_
    show (y + -g.statsMean _) * (y + -g.statsMean _) = _
    rw [hg.statsMean (List.ne_nil_of_mem hy), ← sub_eq_add_neg, sq]
  unfold lsqFit
  cases hb : g.builds d.rows d.nFeatures with
  | false => exact .inl ⟨rfl, rfl⟩
  | true =>
    refine .inr ⟨rfl, ?_⟩
    rw [if_pos rfl]
    split_ifs <;> exact ⟨_, rfl, hdivisor⟩

/-- The divisors of a call of `lsq_fit`. -/
def lsqDivisors (g : Gsl S) (d : Sizes) (userdata : Option (Lm S)) (events samples : List ℚ) : List ℚ :=
  ((lsqFit g d userdata events samples).map Fitted.divisor).toList

/-- **No divisor of `lsq_fit` is zero exactly when two rows differ in the target.** -/
theorem lsqDivisors_iff (hg : g.Documented) : (∀ b ∈ lsqDivisors g d userdata events samples, b ≠ 0) ↔
    (g.builds d.rows d.nFeatures = true →
      ∃ r < d.rows, ∃ r' < d.rows, events.getD (r * d.tda) 0 ≠ events.getD (r' * d.tda) 0) := by
  have hrows : (∃ y ∈ targets d events, ∃ y' ∈ targets d events, y ≠ y') ↔
      ∃ r < d.rows, ∃ r' < d.rows, events.getD (r * d.tda) 0 ≠ events.getD (r' * d.tda) 0 := by
    simp [targets]
  unfold lsqDivisors
  rcases lsqFit_cases d userdata events samples hg with
    ⟨hb, he⟩ | ⟨hb, fitted, he, hdiv⟩
  · rw [he, hb]
    simp
  · rw [he, ← hrows, ← sum_deviations_ne_zero_iff]
    simp [hb, hdiv]

end Divisor

end Hmon
