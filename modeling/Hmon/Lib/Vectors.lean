import Mathlib.Algebra.BigOperators.Group.List.Basic
import Mathlib.Algebra.Ring.Basic
import Mathlib.Data.List.GetD
import Mathlib.Tactic.LinearCombination
import Mathlib.Tactic.Ring

/-!
# Vectors and matrices as lists

* `dot`, `combine`, `matVec`, `tmatVec` : dot product, linear combination, and a matrix and its transpose applied to a
  vector; a matrix is the list of its rows;
* `dot_combine` : the dot product is linear; `dot_tmatVec` : the transpose is adjoint;
* `dot_addVec_self` : **the square of a sum**.
-/

namespace Hmon.Lib

variable {K : Type} [CommRing K]

def dot (xs ys : List K) : K := (List.zipWith (· * ·) xs ys).sum

/-- `c * xs + d * ys` -/
def combine (c : K) (xs : List K) (d : K) (ys : List K) : List K := List.zipWith (fun x y => c * x + d * y) xs ys

def addVec (xs ys : List K) : List K := List.zipWith (· + ·) xs ys

def matVec (a : List (List K)) (xs : List K) : List K := a.map fun row => dot row xs

def column (a : List (List K)) (j : Nat) : List K := a.map fun row => row.getD j 0

/-- The transpose of a matrix with `n` columns. -/
def tmatVec (n : Nat) (a : List (List K)) (ys : List K) : List K := (List.range n).map fun j => dot (column a j) ys

/-- An `m` by `n` matrix. -/
structure IsMatrix (a : List (List K)) (m n : Nat) : Prop where
  rows : a.length = m
  columns : ∀ row ∈ a, row.length = n

section Dot
variable {xs ys zs : List K} {c d : K}

theorem dot_cons (x y : K) (xs ys : List K) : dot (x :: xs) (y :: ys) = x * y + dot xs ys := rfl

theorem dot_comm (xs ys : List K) : dot xs ys = dot ys xs := by
  unfold dot
  rw [List.zipWith_comm]
  simp only [mul_comm]

theorem dot_eq_zero (h : ∀ x ∈ xs, x = 0) : dot xs ys = 0 := by
  induction xs generalizing ys with
  | nil => rfl
  | cons x xs ih =>
    obtain ⟨hx, hxs⟩ := List.forall_mem_cons.mp h
    cases ys with
    | nil => rfl
    | cons y ys => rw [dot_cons, hx, zero_mul, ih hxs, zero_add]

theorem dot_combine (hx : xs.length = zs.length) (hy : ys.length = zs.length) :
    dot (combine c xs d ys) zs = c * dot xs zs + d * dot ys zs := by
  induction zs generalizing xs ys with
  | nil =>
    rw [List.length_eq_zero_iff.mp hx, List.length_eq_zero_iff.mp hy]
    simp [combine, dot]
  | cons z zs ih =>
    obtain ⟨x, xs, rfl⟩ := List.exists_cons_of_length_eq_add_one hx
    obtain ⟨y, ys, rfl⟩ := List.exists_cons_of_length_eq_add_one hy
    have hrest := ih (Nat.succ.inj hx) (Nat.succ.inj hy)
    show dot ((c * x + d * y) :: combine c xs d ys) (z :: zs) = _
    rw [dot_cons, dot_cons, dot_cons, hrest]
    ring

theorem addVec_eq_combine (xs ys : List K) : addVec xs ys = combine 1 xs 1 ys := by
  unfold addVec combine
  simp only [one_mul]

theorem dot_addVec (hx : xs.length = zs.length) (hy : ys.length = zs.length) :
    dot (addVec xs ys) zs = dot xs zs + dot ys zs := by
  rw [addVec_eq_combine, dot_combine hx hy, one_mul, one_mul]

/-- A summand moved out of a combination. -/
theorem combine_addVec (hy : ys.length = xs.length) (hz : zs.length = xs.length) :
    combine 1 (addVec xs ys) d zs = addVec (combine 1 xs d zs) ys := by
  induction xs generalizing ys zs with
  | nil =>
    rw [List.length_eq_zero_iff.mp hy, List.length_eq_zero_iff.mp hz]
    rfl
  | cons x xs ih =>
    obtain ⟨y, ys, rfl⟩ := List.exists_cons_of_length_eq_add_one hy
    obtain ⟨z, zs, rfl⟩ := List.exists_cons_of_length_eq_add_one hz
    have hrest := ih (Nat.succ.inj hy) (Nat.succ.inj hz)
    show (1 * (x + y) + d * z) :: combine 1 (addVec xs ys) d zs = (1 * x + d * z + y) :: _
    rw [hrest]
    congr 1
    ring

theorem length_addVec (h : xs.length = ys.length) : (addVec xs ys).length = ys.length := by
  unfold addVec
  rw [List.length_zipWith, h, min_self]

/-- The square of a sum. -/
theorem dot_addVec_self (h : xs.length = ys.length) :
    dot (addVec xs ys) (addVec xs ys) = dot xs xs + 2 * dot xs ys + dot ys ys := by
  have hlen := length_addVec h
  rw [dot_addVec (h.trans hlen.symm) hlen.symm, dot_comm xs, dot_comm ys, dot_addVec rfl h.symm, dot_addVec h rfl,
    dot_comm ys xs]
  ring

end Dot

section Matrix
variable {a : List (List K)} {m n : Nat} {xs hs ys : List K}

theorem matVec_addVec (ha : IsMatrix a m n) (hx : xs.length = n) (hh : hs.length = n) :
    matVec a (addVec xs hs) = addVec (matVec a xs) (matVec a hs) := by
  unfold matVec addVec
  rw [List.zipWith_map, List.zipWith_self]
  refine List.map_congr_left fun row hrow => ?_
  have hlen : row.length = n := ha.columns row hrow
  rw [dot_comm, show List.zipWith (· + ·) xs hs = addVec xs hs from rfl, dot_addVec (hx.trans hlen.symm)
    (hh.trans hlen.symm), dot_comm xs, dot_comm hs]

theorem map_range_getD {xs : List K} (h : xs.length = n) : (List.range n).map (fun j => xs.getD j 0) = xs := by
  apply List.ext_getElem
  · rw [List.length_map, List.length_range, h]
  · intro j _ hj
    rw [List.getElem_map, List.getElem_range, List.getD_eq_getElem _ _ hj]

omit [CommRing K] in
theorem IsMatrix.set {row : List K} (ha : IsMatrix a m n) (hrow : row.length = n) (i : Nat) :
    IsMatrix (a.set i row) m n where
  rows := List.length_set.trans ha.rows
  columns r hr := by
    rcases List.mem_or_eq_of_mem_set hr with h | rfl
    · exact ha.columns r h
    · exact hrow

/-- The transpose of a matrix with one more row. -/
theorem tmatVec_cons (row : List K) (a : List (List K)) (y : K) (ys : List K) (h : row.length = n) :
    tmatVec n (row :: a) (y :: ys) = combine y row 1 (tmatVec n a ys) := by
  unfold tmatVec combine
  conv_rhs => rw [← map_range_getD h, List.zipWith_map, List.zipWith_self]
  refine List.map_congr_left fun j _ => ?_
  rw [column, List.map_cons, dot_cons]
  simp only [column]
  ring

/-- **The transpose is adjoint.** -/
theorem dot_tmatVec (ha : IsMatrix a m n) (hy : ys.length = m) (hx : xs.length = n) :
    dot (tmatVec n a ys) xs = dot ys (matVec a xs) := by
  induction a generalizing m ys with
  | nil =>
    have hzero : ∀ z ∈ tmatVec n [] ys, z = (0 : K) := by
      intro z hz
      obtain ⟨j, -, rfl⟩ := List.mem_map.mp hz
      rfl
    rw [dot_eq_zero hzero, dot_comm]
    rfl
  | cons row a ih =>
    obtain ⟨hrows, hcolumns⟩ := ha
    obtain ⟨hrow, hcolumns⟩ := List.forall_mem_cons.mp hcolumns
    obtain ⟨y, ys, rfl⟩ := List.exists_cons_of_length_eq_add_one (hy.trans hrows.symm)
    have hrest := ih ⟨rfl, hcolumns⟩ (Nat.succ.inj (hy.trans hrows.symm))
    rw [tmatVec_cons _ _ _ _ hrow, dot_combine (hrow.trans hx.symm) (by simp [tmatVec, hx]), hrest, one_mul]
    rfl

end Matrix
end Hmon.Lib
