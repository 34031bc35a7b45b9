import Mathlib.Algebra.BigOperators.Group.List.Basic
import Mathlib.Algebra.Order.BigOperators.Group.List
import Mathlib.Algebra.Order.Field.Basic
import Mathlib.Tactic.FieldSimp
import Mathlib.Tactic.Ring

/-!
# Mean and variance of a list

* `mean`, `variance` : the mean, and the mean of the squared deviations from it;
* `variance_eq` : **the variance in one pass**, from the sum and the sum of the squares;
* `sum_deviations_ne_zero_iff` : the squared deviations do not vanish where two elements differ;
* `variance_nonneg`, `variance_add_const`.
-/

namespace Hmon.Lib

variable {K : Type} [Field K] {xs ys : List K}

def mean (xs : List K) : K := xs.sum / xs.length

def variance (xs : List K) : K := (xs.map fun x => (x - mean xs) ^ 2).sum / xs.length

theorem mean_const [CharZero K] {x : K} (hne : xs ≠ []) (h : ∀ y ∈ xs, y = x) : mean xs = x := by
  have hlen : (xs.length : K) ≠ 0 := Nat.cast_ne_zero.mpr (List.length_pos_iff.mpr hne).ne'
  have hsum : xs.sum = xs.length * x := by
    rw [List.eq_replicate_of_mem h, List.sum_replicate, List.length_replicate, nsmul_eq_mul]
  rw [mean, hsum, mul_div_cancel_left₀ x hlen]

/-- The squared deviations from any value. -/
theorem sum_deviations (xs : List K) (c : K) : (xs.map fun x => (x - c) ^ 2).sum =
    (xs.map fun x => x * x).sum - 2 * c * xs.sum + xs.length * c ^ 2 := by
  induction xs with
  | nil => simp
  | cons x xs ih =>
    rw [List.map_cons, List.map_cons, List.sum_cons, List.sum_cons, List.sum_cons, ih, List.length_cons, Nat.cast_succ]
    ring

/-- **The variance in one pass.** -/
theorem variance_eq (hne : (xs.length : K) ≠ 0) : variance xs =
    1 / xs.length * (xs.map fun x => x * x).sum - 1 / (xs.length * xs.length) * xs.sum * xs.sum := by
  unfold variance
  rw [sum_deviations]
  unfold mean
  field_simp
  ring

theorem mean_add_const (hne : (xs.length : K) ≠ 0) (k : K) : mean (xs.map (· + k)) = mean xs + k := by
  have hsum : (xs.map (· + k)).sum = xs.sum + xs.length * k := by
    clear hne
    induction xs with
    | nil => simp
    | cons x xs ih =>
      rw [List.map_cons, List.sum_cons, List.sum_cons, ih, List.length_cons, Nat.cast_succ]
      ring
  unfold mean
  rw [hsum, List.length_map]
  field_simp

/-- A constant added to all elements leaves the variance. -/
theorem variance_add_const (hne : (xs.length : K) ≠ 0) (k : K) : variance (xs.map (· + k)) = variance xs := by
  unfold variance
  rw [mean_add_const hne, List.map_map, List.length_map]
  congr 2
  refine List.map_congr_left fun x _ => ?_
  show (x + k - (mean xs + k)) ^ 2 = _
  rw [add_sub_add_right_eq_sub]

/-- The squared deviations from the mean vanish together with all differences. -/
theorem sum_deviations_ne_zero_iff [LinearOrder K] [IsStrictOrderedRing K] {xs : List K} :
    (xs.map fun x => (x - mean xs) ^ 2).sum ≠ 0 ↔ ∃ x ∈ xs, ∃ y ∈ xs, x ≠ y := by
  constructor
  · intro hsum
    by_contra hnone
    have hall : ∀ x ∈ xs, ∀ y ∈ xs, x = y := fun x hx y hy => by_contra fun hne => hnone ⟨x, hx, y, hy, hne⟩
    refine hsum (List.sum_eq_zero fun d hd => ?_)
    obtain ⟨x, hx, rfl⟩ := List.mem_map.mp hd
    have hne : (xs.length : K) ≠ 0 := Nat.cast_ne_zero.mpr (List.length_pos_of_mem hx).ne'
    have hconst : xs.sum = xs.length * x := by
      rw [List.eq_replicate_of_mem fun y hy => hall y hy x hx, List.sum_replicate, List.length_replicate, nsmul_eq_mul]
    rw [mean, hconst, mul_div_cancel_left₀ x hne, sub_self, sq, zero_mul]
  · rintro ⟨x, hx, y, hy, hxy⟩ hsum
    have hzero : ∀ z ∈ xs, z = mean xs := by
      intro z hz
      have hle : (z - mean xs) ^ 2 ≤ (xs.map fun x => (x - mean xs) ^ 2).sum :=
        List.single_le_sum (fun d hd => by
          obtain ⟨x, -, rfl⟩ := List.mem_map.mp hd
          exact sq_nonneg _) _ (List.mem_map_of_mem hz)
      rw [hsum] at hle
      exact sub_eq_zero.mp (pow_eq_zero_iff two_ne_zero |>.mp (le_antisymm hle (sq_nonneg _)))
    exact hxy ((hzero x hx).trans (hzero y hy).symm)

theorem variance_nonneg [LinearOrder K] [IsStrictOrderedRing K] (xs : List K) : 0 ≤ variance xs := by
  refine div_nonneg (List.sum_nonneg fun y hy => ?_) (Nat.cast_nonneg _)
  obtain ⟨x, -, rfl⟩ := List.mem_map.mp hy
  exact sq_nonneg _

/-- A running sum. -/
theorem foldl_add_eq_sum {β : Type} (f : β → K) (x : K) (bs : List β) :
    bs.foldl (fun acc b => acc + f b) x = x + (bs.map f).sum := by
  induction bs generalizing x with
  | nil => simp
  | cons b bs ih => rw [List.foldl_cons, ih, List.map_cons, List.sum_cons, add_assoc]

end Hmon.Lib
