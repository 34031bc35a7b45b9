import Hmon.C
import Hmon.Lib.Stats

/-!
# Linear regression (`linreg.c`)

* `Gsl` : the functions of the GNU Scientific Library that `linreg.c` and `learning.c` call; `Gsl.Documented` : what
  its manual says of those whose values matter here;
* `lsq`, `dlsq`, `lsqdlsq` : the cost, its derivatives and both;
* `linearModelFit` : the fit, at most `MAX_ITER` iterations of the minimizer.

Vectors are lists and matrices lists of rows; the doubles are exact rationals.
-/

namespace Hmon
open Lib

/-- `CBLAS_TRANSPOSE_t`. -/
inductive Transpose
  | noTrans
  | trans
  deriving DecidableEq, Repr

/-- `gsl_multimin_function_fdf`. -/
structure Objective where
  f : List ℚ → ℚ
  df : List ℚ → List ℚ
  fdf : List ℚ → ℚ × List ℚ
  n : Nat

/-- The library. `S` is `gsl_multimin_fdfminimizer`. -/
structure Gsl (S : Type) where
  /-- The views and vectors of an `m` by `n` matrix are built; otherwise the error handler ends the program. -/
  builds : (m n : Nat) → Bool
  statsMean : List ℚ → ℚ
  vectorAddConstant : List ℚ → ℚ → List ℚ
  blasDdot : List ℚ → List ℚ → ℚ
  /-- `alpha op(a) x + beta y`. -/
  blasDgemv : (op : Transpose) → (alpha : ℚ) → (a : List (List ℚ)) → (x : List ℚ) → (beta : ℚ) → (y : List ℚ) → List ℚ
  minimizerAlloc : (n : Nat) → S
  minimizerSet : S → Objective → (x : List ℚ) → (stepSize tol : ℚ) → S
  /-- The status and the minimizer after one iteration. -/
  minimizerIterate : S → Int × S
  testGradient : S → (epsabs : ℚ) → Int
  minimizerX : S → List ℚ

structure Gsl.Documented {S : Type} (g : Gsl S) : Prop where
  statsMean : ∀ {ys}, ys ≠ [] → g.statsMean ys = mean ys
  vectorAddConstant : ∀ ys c, g.vectorAddConstant ys c = ys.map (· + c)
  blasDdot : ∀ xs ys, xs.length = ys.length → g.blasDdot xs ys = (List.zipWith (· * ·) xs ys).sum

/-- `struct linear_model`. -/
structure Lm (S : Type) where
  lambda : ℚ
  s : S

def maxIter : Nat := 10

/-- `LAMBDA`. -/
def defaultLambda : ℚ := 1000

def gslContinue : Int := -2

section Fit
variable {S : Type} (g : Gsl S)

def newLinearModel (n : Nat) (lambda : ℚ) : Lm S := ⟨lambda, g.minimizerAlloc n⟩

def hY (x : List (List ℚ)) (theta y : List ℚ) : List ℚ := g.blasDgemv .noTrans 1 x theta (-1) y

/-- The squared cost, and the vector `y` that it overwrites. -/
def hY2 (x : List (List ℚ)) (theta y : List ℚ) : ℚ × List ℚ :=
  let y := hY g x theta y
  (g.blasDdot y y, y)

def hY2Regularized (x : List (List ℚ)) (theta y : List ℚ) (lambda : ℚ) : ℚ × List ℚ :=
  let reg := g.blasDdot theta theta
  let (cost, y) := hY2 g x theta y
  (cost + lambda * reg, y)

def lsq (lambda : ℚ) (x : List (List ℚ)) (y theta : List ℚ) : ℚ := (hY2Regularized g x theta y lambda).1

def dlsq (lambda : ℚ) (x : List (List ℚ)) (y theta : List ℚ) : List ℚ :=
  g.blasDgemv .trans 1 x (hY g x theta y) lambda theta

def lsqdlsq (lambda : ℚ) (x : List (List ℚ)) (y theta : List ℚ) : ℚ × List ℚ :=
  let (cost, hypothesisY) := hY2Regularized g x theta y lambda
  (cost, g.blasDgemv .trans 1 x hypothesisY lambda theta)

/-- The loop of `linear_model_fit`; it goes on only while the status is `GSL_CONTINUE`. -/
def fitLoop : (iter : Nat) → S → S
  | 0, s => s
  | iter + 1, s =>
    let (status, s) := g.minimizerIterate s
    if status ≠ 0 then s
    else if g.testGradient s (1 / 1000) = gslContinue then fitLoop iter s
    else s

/-- The fitted parameters and the model afterwards. `size2` is the number of columns of `x`. -/
def linearModelFit (model : Lm S) (size2 : Nat) (x : List (List ℚ)) (theta y : List ℚ) : List ℚ × Lm S :=
  let objective : Objective :=
    ⟨lsq g model.lambda x y, dlsq g model.lambda x y, lsqdlsq g model.lambda x y, size2⟩
  let s := fitLoop g maxIter (g.minimizerSet model.s objective theta (1 / 100) (1 / 10000))
  (g.minimizerX s, { model with s := s })

end Fit

end Hmon
