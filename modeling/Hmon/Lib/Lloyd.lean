import Hmon.Lib.Vectors
import Mathlib.Algebra.BigOperators.Ring.Finset
import Mathlib.Algebra.Order.BigOperators.Group.Finset
import Mathlib.Algebra.Order.Ring.Abs
import Mathlib.Tactic.Linarith
import Mathlib.Tactic.Ring

/-!
# Lloyd's iteration

Points `p i` with labels `a i` and a centre `c l` for each label; coordinates are those of the set `T`.

* `sqDist`, `clusterCost` : the squared distance, and its sum over the points to the centres of their labels;
  `dot_sub_self` : the distance of two lists;
* `clusterCost_label_le` : **labels of nearer centres do not cost more**;
* `sum_sq_mean_le` : the squared deviations are the least from the mean;
* `clusterCost_center_le` : **neither do the means of the labels**; `Means.cost_le` : what they cost at most.
-/

namespace Hmon.Lib

variable {K ι τ l : Type} [Field K]

def sqDist (T : Finset τ) (x y : τ → K) : K := ∑ t ∈ T, (x t - y t) ^ 2

/-- The square of the difference of two lists. -/
theorem dot_sub_self {n : Nat} {xs ys : List K} (hx : xs.length = n) (hy : ys.length = n) :
    dot (combine 1 xs (-1) ys) (combine 1 xs (-1) ys) =
      sqDist (Finset.range n) (fun t => xs.getD t 0) fun t => ys.getD t 0 := by
  unfold sqDist
  induction n generalizing xs ys with
  | zero =>
    rw [List.length_eq_zero_iff.mp hx, List.length_eq_zero_iff.mp hy]
    rfl
  | succ n ih =>
    obtain ⟨x, xs, rfl⟩ := List.exists_cons_of_length_eq_add_one hx
    obtain ⟨y, ys, rfl⟩ := List.exists_cons_of_length_eq_add_one hy
    have hrest := ih (Nat.succ.inj hx) (Nat.succ.inj hy)
    show (1 * x + -1 * y) * (1 * x + -1 * y) + dot (combine 1 xs (-1) ys) (combine 1 xs (-1) ys) = _
    rw [hrest, Finset.sum_range_succ']
    simp only [List.getD_cons_zero, List.getD_cons_succ]
    ring

/-- What the labels `a` and the centres `c` cost. -/
def clusterCost (S : Finset ι) (T : Finset τ) (p : ι → τ → K) (a : ι → l) (c : l → τ → K) : K :=
  ∑ i ∈ S, sqDist T (p i) (c (a i))

/-- A sum over some of the first `m` numbers, and how many they are. -/
theorem sum_filter_range (m : Nat) (q : Nat → Prop) [DecidablePred q] (f : Nat → K) :
    (((List.range m).filter fun i => q i).map f).sum = ∑ i ∈ Finset.range m with q i, f i := by
  have hrange : (List.range m).toFinset = Finset.range m := by
    ext i
    simp
  rw [← List.sum_toFinset f (List.nodup_range.filter _), List.toFinset_filter, hrange]
  simp

theorem length_filter_range (m : Nat) (q : Nat → Prop) [DecidablePred q] :
    (((List.range m).filter fun i => q i).length : K) = ((Finset.range m).filter q).card := by
  have hones := sum_filter_range m q fun _ => (1 : K)
  rw [List.map_const', List.sum_replicate, Finset.sum_const, nsmul_one, nsmul_one] at hones
  exact hones

variable [LinearOrder K] [IsStrictOrderedRing K] {S : Finset ι} {T : Finset τ} {p : ι → τ → K} {a a' : ι → l}
  {c c' : l → τ → K}

theorem sqDist_nonneg (x y : τ → K) : 0 ≤ sqDist T x y := Finset.sum_nonneg fun t _ => sq_nonneg (x t - y t)

theorem clusterCost_label_le (h : ∀ i ∈ S, sqDist T (p i) (c (a' i)) ≤ sqDist T (p i) (c (a i))) :
    clusterCost S T p a' c ≤ clusterCost S T p a c := Finset.sum_le_sum h

/-- The deviations from the mean `m` are the least. -/
theorem sum_sq_mean_le {x : ι → K} {m : K} (hm : m * S.card = ∑ i ∈ S, x i) (y : K) :
    ∑ i ∈ S, (x i - m) ^ 2 ≤ ∑ i ∈ S, (x i - y) ^ 2 := by
  have hsplit : ∑ i ∈ S, (x i - y) ^ 2 = ∑ i ∈ S, (x i - m) ^ 2 + S.card * (m - y) ^ 2 := by
    have hterm (i : ι) : (x i - y) ^ 2 = (x i - m) ^ 2 + (2 * (m - y) * x i + (y ^ 2 - m ^ 2)) := by ring
    simp only [hterm, Finset.sum_add_distrib, ← Finset.mul_sum, Finset.sum_const, nsmul_eq_mul]
    rw [← hm]
    ring
  rw [hsplit]
  exact le_add_of_nonneg_right (mul_nonneg (Nat.cast_nonneg _) (sq_nonneg _))

/-- `c' l` is the mean of the points with the label `l`, if there are any. -/
def Means [DecidableEq l] (S : Finset ι) (T : Finset τ) (p : ι → τ → K) (a : ι → l) (c' : l → τ → K) : Prop :=
  ∀ i ∈ S, ∀ t ∈ T, c' (a i) t * (S.filter fun j => a j = a i).card = ∑ j ∈ S.filter fun j => a j = a i, p j t

theorem clusterCost_center_le [DecidableEq l] (h : Means S T p a c') :
    clusterCost S T p a c' ≤ clusterCost S T p a c := by
  have hcost (c : l → τ → K) : clusterCost S T p a c =
      ∑ t ∈ T, ∑ x ∈ S.image a, ∑ i ∈ S.filter fun j => a j = x, (p i t - c x t) ^ 2 := by
    unfold clusterCost sqDist
    rw [Finset.sum_comm]
    refine Finset.sum_congr rfl fun t _ => ?_
    rw [← Finset.sum_fiberwise_of_maps_to fun i hi => Finset.mem_image_of_mem a hi]
    refine Finset.sum_congr rfl fun x _ => Finset.sum_congr rfl fun i hi => ?_
    rw [(Finset.mem_filter.mp hi).2]
  rw [hcost, hcost]
  refine Finset.sum_le_sum fun t ht => Finset.sum_le_sum fun x hx => ?_
  obtain ⟨i, hi, rfl⟩ := Finset.mem_image.mp hx
  exact sum_sq_mean_le (h i hi t ht) (c (a i) t)

/-- A mean is not larger than the points. -/
theorem Means.abs_center_le [DecidableEq l] (h : Means S T p a c') {b : K} (hp : ∀ i ∈ S, ∀ t ∈ T, |p i t| ≤ b) {i : ι}
    (hi : i ∈ S) {t : τ} (ht : t ∈ T) : |c' (a i) t| ≤ b := by
  have hcard : (0 : K) < (S.filter fun j => a j = a i).card :=
    Nat.cast_pos.mpr (Finset.card_pos.mpr ⟨i, Finset.mem_filter.mpr ⟨hi, rfl⟩⟩)
  refine le_of_mul_le_mul_right ?_ hcard
  calc |c' (a i) t| * (S.filter fun j => a j = a i).card
      = |∑ j ∈ S.filter fun j => a j = a i, p j t| := by rw [← h i hi t ht, abs_mul, abs_of_pos hcard]
    _ ≤ ∑ j ∈ S.filter fun j => a j = a i, |p j t| := Finset.abs_sum_le_sum_abs _ _
    _ ≤ (S.filter fun j => a j = a i).card • b :=
        Finset.sum_le_card_nsmul _ _ _ fun j hj => hp j (Finset.mem_filter.mp hj).1 t ht
    _ = b * (S.filter fun j => a j = a i).card := by rw [nsmul_eq_mul, mul_comm]

/-- What means cost at most. -/
theorem Means.cost_le [DecidableEq l] (h : Means S T p a c') {b : K} (hp : ∀ i ∈ S, ∀ t ∈ T, |p i t| ≤ b) :
    clusterCost S T p a c' ≤ S.card * (T.card * (2 * b) ^ 2) := by
  rw [← nsmul_eq_mul, ← nsmul_eq_mul]
  refine Finset.sum_le_card_nsmul _ _ _ fun i hi => Finset.sum_le_card_nsmul _ _ _ fun t ht => ?_
  obtain ⟨hlo, hhi⟩ := abs_le.mp (hp i hi t ht)
  obtain ⟨hlo', hhi'⟩ := abs_le.mp (h.abs_center_le hp hi ht)
  exact sq_le_sq' (by linarith) (by linarith)

end Hmon.Lib
