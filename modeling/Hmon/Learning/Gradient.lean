import Hmon.Learning.Linreg
import Hmon.Lib.Vectors
import Mathlib.Tactic.Linarith

/-!
# The gradient of the cost (`lsq`, `dlsq` and `lsqdlsq` in `linreg.c`)

* `Gsl.DocumentedBlas` : what the manual of the library says of `ddot` and `dgemv`;
* `lsq_eq`, `dlsq_eq` : the cost and the vector that `dlsq` writes;
* `lsq_addVec` : the cost of shifted parameters, to second order;
* `gradient_iff` : **it has the vector of `dlsq` as its first order exactly when the residual and the parameters are
  orthogonal to the direction**.
-/

namespace Hmon
open Lib

/-- The products of the library, on arguments of matching sizes. -/
structure Gsl.DocumentedBlas {S : Type} (g : Gsl S) : Prop where
  ddot : ∀ {xs ys}, xs.length = ys.length → g.blasDdot xs ys = dot xs ys
  dgemvNoTrans : ∀ {a m n xs ys} alpha beta, IsMatrix a m n → xs.length = n → ys.length = m →
    g.blasDgemv .noTrans alpha a xs beta ys = combine alpha (matVec a xs) beta ys
  dgemvTrans : ∀ {a m n xs ys} alpha beta, IsMatrix a m n → xs.length = m → ys.length = n →
    g.blasDgemv .trans alpha a xs beta ys = combine alpha (tmatVec n a xs) beta ys

/-- `X * Theta - y` -/
def residual (x : List (List ℚ)) (y theta : List ℚ) : List ℚ := combine 1 (matVec x theta) (-1) y

section Gradient
variable {S : Type} {g : Gsl S} {x : List (List ℚ)} {m n : Nat} {y theta h : List ℚ}

/-- The vector of `dlsq` is the first order of the cost in the direction `h`, and `lsqdlsq` returns the cost and this
vector. -/
structure IsGradient (g : Gsl S) (lambda : ℚ) (x : List (List ℚ)) (y theta h : List ℚ) : Prop where
  expansion : lsq g lambda x y (addVec theta h) = lsq g lambda x y theta + dot (dlsq g lambda x y theta) h +
    dot (matVec x h) (matVec x h) + lambda * dot h h
  both : lsqdlsq g lambda x y theta = (lsq g lambda x y theta, dlsq g lambda x y theta)

variable (hg : g.DocumentedBlas) (hx : IsMatrix x m n) (hy : y.length = m) (ht : theta.length = n)

include hx hy in
theorem length_residual (theta : List ℚ) : (residual x y theta).length = m := by
  unfold residual combine matVec
  rw [List.length_zipWith, List.length_map, hx.rows, hy, min_self]

include hg hx hy ht

theorem hY_eq : hY g x theta y = residual x y theta := hg.dgemvNoTrans 1 (-1) hx ht hy

/-- The cost. -/
theorem lsq_eq (lambda : ℚ) : lsq g lambda x y theta =
    dot (residual x y theta) (residual x y theta) + lambda * dot theta theta := by
  show g.blasDdot (hY g x theta y) (hY g x theta y) + lambda * g.blasDdot theta theta = _
  rw [hY_eq hg hx hy ht, hg.ddot rfl, hg.ddot rfl]

/-- What `dlsq` writes. -/
theorem dlsq_eq (lambda : ℚ) : dlsq g lambda x y theta =
    combine 1 (tmatVec n x (residual x y theta)) lambda theta := by
  unfold dlsq
  rw [hY_eq hg hx hy ht, hg.dgemvTrans 1 lambda hx (length_residual hx hy theta) ht]

/-- The first order of what `dlsq` writes. -/
theorem dot_dlsq (lambda : ℚ) (hh : h.length = n) : dot (dlsq g lambda x y theta) h =
    dot (residual x y theta) (matVec x h) + lambda * dot theta h := by
  rw [dlsq_eq hg hx hy ht, dot_combine (by simp [tmatVec, hh]) (ht.trans hh.symm),
    dot_tmatVec hx (length_residual hx hy theta) hh, one_mul]

omit hg in
theorem residual_addVec (hh : h.length = n) :
    residual x y (addVec theta h) = addVec (residual x y theta) (matVec x h) := by
  unfold residual
  rw [matVec_addVec hx ht hh, combine_addVec]
  · rw [matVec, matVec, List.length_map, List.length_map]
  · rw [hy, matVec, List.length_map, hx.rows]

/-- **The cost of shifted parameters: its first order is twice what `dlsq` writes.** -/
theorem lsq_addVec (lambda : ℚ) (hh : h.length = n) : lsq g lambda x y (addVec theta h) =
    lsq g lambda x y theta + 2 * dot (dlsq g lambda x y theta) h + dot (matVec x h) (matVec x h) +
      lambda * dot h h := by
  have hlen : (residual x y theta).length = (matVec x h).length := by
    rw [length_residual hx hy, matVec, List.length_map, hx.rows]
  have hshift : (addVec theta h).length = n := (length_addVec (ht.trans hh.symm)).trans hh
  rw [lsq_eq hg hx hy hshift, lsq_eq hg hx hy ht, dot_dlsq hg hx hy ht lambda hh, residual_addVec hx hy ht hh,
    dot_addVec_self hlen, dot_addVec_self (ht.trans hh.symm)]
  ring

/-- **The vector of `dlsq` is the gradient of the cost in a direction exactly when the cost is flat in it.** -/
theorem gradient_iff (lambda : ℚ) (hh : h.length = n) : IsGradient g lambda x y theta h ↔
    dot (combine 1 (matVec x theta) (-1) y) (matVec x h) + lambda * dot theta h = 0 := by
  have hfirst := dot_dlsq hg hx hy ht lambda hh
  have hsecond := lsq_addVec hg hx hy ht lambda hh
  show _ ↔ dot (residual x y theta) (matVec x h) + lambda * dot theta h = 0
  rw [← hfirst]
  constructor
  · intro hgrad
    have hexp := hgrad.expansion
    linarith
  · intro hflat
    refine ⟨?_, rfl⟩
    rw [hsecond, hflat]
    ring

end Gradient

/-! ## One sample -/

/-- The products of the library in exact arithmetic. -/
def productGsl : Gsl Unit where
  builds _ _ := true
  statsMean := mean
  vectorAddConstant ys c := ys.map (· + c)
  blasDdot := dot
  blasDgemv op alpha a xs beta ys :=
    match op with
    | .noTrans => combine alpha (matVec a xs) beta ys
    | .trans => combine alpha (tmatVec ys.length a xs) beta ys
  minimizerAlloc _ := ()
  minimizerSet _ _ _ _ _ := ()
  minimizerIterate _ := (0, ())
  testGradient _ _ := 0
  minimizerX _ := []

theorem productGsl_documented : productGsl.DocumentedBlas where
  ddot _ := rfl
  dgemvNoTrans _ _ _ _ _ := rfl
  dgemvTrans _ _ _ _ hy := by
    subst hy
    rfl

/-- Two samples of two features, at a point that is no minimum: the cost is flat along `(2, 7)`, which is orthogonal to
the vector `(7, -2)` of `dlsq`. -/
theorem gradient_minimum : dlsq productGsl 0 [[1, 0], [0, 2]] [3, 1] [10, 0] = [7, -2] ∧
    IsGradient productGsl 0 [[1, 0], [0, 2]] [3, 1] [10, 0] [2, 7] :=
  ⟨by norm_num [dlsq, hY, productGsl, combine, matVec, tmatVec, column, dot, List.range_succ],
    (gradient_iff productGsl_documented ⟨rfl, by decide⟩ (m := 2) (n := 2) rfl rfl 0 rfl).mpr
      (by norm_num [dot, combine, matVec])⟩

/-- With the cost `(2 * Theta - 2)^2`, a step of 1 from `Theta = 2` costs 12 more, and the vector of `dlsq` accounts for
8. -/
theorem gradient_half : ¬ ∀ {S : Type} {g : Gsl S} {x : List (List ℚ)} {m n : Nat} {y theta h : List ℚ},
    g.DocumentedBlas → IsMatrix x m n → y.length = m → theta.length = n → ∀ lambda : ℚ, h.length = n →
      IsGradient g lambda x y theta h := by
  intro hall
  have hgrad := @hall _ productGsl [[2]] 1 1 [2] [2] [1] productGsl_documented ⟨rfl, by decide⟩ rfl rfl 0 rfl
  exact absurd hgrad.expansion (by norm_num [lsq, dlsq, hY2Regularized, hY2, hY, productGsl, dot, combine, addVec,
    matVec, tmatVec, column])

end Hmon
