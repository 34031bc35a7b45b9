import Hmon.Learning.Descent
import Hmon.Learning.Lsq
import Mathlib.Tactic.LinearCombination

/-!
# Normalized events (`features.c`, and `clustering` in `learning.c`)

* `gslVectorNormalize`, `gslMatrixNormalizeColumns` : a vector, and each column of a matrix, with what they return;
* `clustering` : the labels of the normalized window;
* `normalizeColumns_exact` : **in exact arithmetic the returned scaling undoes what was done to a column, and the column
  is standardized exactly when its range is its mean**: `struct scaling` is filled the other way round;
* `clustering_exact` : **what becomes of a window**: it is clustered if it has one event and more than two rows, and has
  the labels of uninitialized memory if it has fewer.
-/

namespace Hmon
open Lib

/-! ## `features.c` -/

/-- `struct scaling` -/
structure Scaling where
  center : ℚ
  scale : ℚ

def gslVectorNormalize (g : GslRows) (v : List ℚ) : List ℚ × Scaling :=
  let scale : Scaling := ⟨g.vectorMax v - g.vectorMin v, g.statsMean v⟩
  let v := g.vectorAddConstant v (-scale.center)
  (if scale.scale ≠ 0 then g.vectorScale v (1 / scale.scale) else v, scale)

/-- A vector written through the view of a column. -/
def setColumn (a : List (List ℚ)) (j : Nat) (v : List ℚ) : List (List ℚ) := List.zipWith (fun row x => row.set j x) a v

/-- `gsl_matrix_normalize_columns`: the matrix, and what it writes into `scales`. -/
def gslMatrixNormalizeColumns (g : GslRows) (a : List (List ℚ)) (size2 : Nat) : List (List ℚ) × List Scaling :=
  (List.range size2).foldl (fun s i =>
    let (v, scale) := gslVectorNormalize g (g.matrixColumn s.1 i)
    (setColumn s.1 i v, s.2 ++ [scale])) (a, [])

/-! ## `clustering` -/

/-- `K` -/
def defaultK : Nat := 2

/-- `to_gsl_matrix(monitor->events, m, monitor->n_events+1)` -/
def window (d : Sizes) (events : List ℚ) : List (List ℚ) :=
  (List.range d.rows).map fun r => (List.range d.tda).map fun j => events.getD (r * d.tda + j) 0

/-- `clustering`: the samples of a monitor. -/
def clustering (g : GslRows) (mem : CentroidsMemory) (rand : Nat → Nat) (d : Sizes) (events samples : List ℚ) :
    Except GslError (List ℚ) := do
  let normalized := (gslMatrixNormalizeColumns g (window d events) d.tda).1
  let c ← kmean g mem rand normalized d.rows d.tda defaultK
  forLoop (fun i samples => do .ok (samples.set i (← g.ulongGet c.label i))) (min d.rows d.nSamples) samples

/-! ## One column -/

section Column
variable {g : GslRows} (hg : g.Documented) {v : List ℚ}

/-- The largest element less the smallest. -/
def valueRange (v : List ℚ) : ℚ := v.max?.getD 0 - v.min?.getD 0

/-- What the names of the fields say: the mean is the center and the range the scale. -/
def standardized (v : List ℚ) : List ℚ :=
  v.map fun x => if valueRange v ≠ 0 then (x - mean v) / valueRange v else x - mean v

/-- The inverse of a scaling. -/
def Scaling.undo (s : Scaling) (x : ℚ) : ℚ := (if s.scale ≠ 0 then x * s.scale else x) + s.center

include hg

theorem gslVectorNormalize_scaling (hv : v ≠ []) : (gslVectorNormalize g v).2 = ⟨valueRange v, mean v⟩ := by
  show (⟨g.vectorMax v - g.vectorMin v, g.statsMean v⟩ : Scaling) = _
  unfold valueRange
  rw [hg.vectorMax hv, hg.vectorMin hv, hg.statsMean hv, Option.getD_some, Option.getD_some]

theorem gslVectorNormalize_map (hv : v ≠ []) : (gslVectorNormalize g v).1 = v.map fun x =>
    if mean v ≠ 0 then (x - valueRange v) / mean v else x - valueRange v := by
  have hscaling : (⟨g.vectorMax v - g.vectorMin v, g.statsMean v⟩ : Scaling) = ⟨valueRange v, mean v⟩ :=
    gslVectorNormalize_scaling hg hv
  unfold gslVectorNormalize
  rw [hscaling]
  dsimp only
  rw [hg.vectorAddConstant]
  by_cases h : mean v = 0
  · simp only [h, ne_eq, not_true_eq_false, if_false, sub_eq_add_neg]
  · simp only [h, ne_eq, not_false_eq_true, if_true, hg.vectorScale, List.map_map]
    refine List.map_congr_left fun x _ => ?_
    show (x + -valueRange v) * (1 / mean v) = _
    rw [mul_one_div, ← sub_eq_add_neg]

theorem gslVectorNormalize_length (v : List ℚ) : (gslVectorNormalize g v).1.length = v.length := by
  unfold gslVectorNormalize
  simp only [hg.vectorAddConstant, hg.vectorScale]
  split_ifs
  · rw [List.length_map, List.length_map]
  · rw [List.length_map]

/-- The returned scaling undoes what was done. -/
theorem gslVectorNormalize_undo (hv : v ≠ []) :
    (gslVectorNormalize g v).1.map (gslVectorNormalize g v).2.undo = v := by
  rw [gslVectorNormalize_map hg hv, gslVectorNormalize_scaling hg hv, List.map_map]
  refine (List.map_congr_left fun x _ => ?_).trans (List.map_id v)
  show Scaling.undo ⟨valueRange v, mean v⟩ _ = x
  unfold Scaling.undo
  by_cases h : mean v = 0
  · simp [h]
  · simp [h]

omit hg in
theorem exists_extremes (hv : v ≠ []) : ∃ a ∈ v, ∃ b ∈ v, valueRange v = a - b ∧ ∀ x ∈ v, b ≤ x ∧ x ≤ a := by
  unfold valueRange
  cases hmax : v.max? with
  | none => exact absurd (List.max?_eq_none_iff.mp hmax) hv
  | some a =>
    cases hmin : v.min? with
    | none => exact absurd (List.min?_eq_none_iff.mp hmin) hv
    | some b =>
      obtain ⟨ha, hle⟩ := List.max?_eq_some_iff.mp hmax
      obtain ⟨hb, hge⟩ := List.min?_eq_some_iff.mp hmin
      exact ⟨a, ha, b, hb, rfl, fun x hx => ⟨hge x hx, hle x hx⟩⟩

/-- **A vector is standardized exactly when its range is its mean.** -/
theorem gslVectorNormalize_iff (hv : v ≠ []) :
    (gslVectorNormalize g v).1 = standardized v ↔ valueRange v = mean v := by
  rw [gslVectorNormalize_map hg hv]
  unfold standardized
  constructor
  · intro hmap
    by_contra hne
    obtain ⟨a, ha, b, hb, hrange, hbetween⟩ := exists_extremes hv
    have heq := List.map_inj_left.mp hmap
    have hmaxeq := heq a ha
    have hmineq := heq b hb
    by_cases hm : mean v = 0
    · -- the extremes say that the range is one, and then that one is zero
      have hr : valueRange v ≠ 0 := fun h => hne (h.trans hm.symm)
      rw [if_neg (not_not.mpr hm), if_pos hr, hm, sub_zero, eq_div_iff hr] at hmaxeq hmineq
      have hone : valueRange v = 1 := mul_right_cancel₀ hr (by linear_combination hmaxeq - hmineq +
        (valueRange v - 1) * hrange)
      rw [hone] at hmaxeq
      linarith
    · by_cases hr : valueRange v = 0
      · -- all elements are the mean
        have hconst : ∀ x ∈ v, x = a := fun x hx =>
          le_antisymm (hbetween x hx).2 ((sub_eq_zero.mp (hrange.symm.trans hr)).le.trans (hbetween x hx).1)
        rw [if_pos hm, if_neg (not_not.mpr hr), hr, sub_zero, ← mean_const hv hconst, sub_self, div_self hm] at hmaxeq
        exact one_ne_zero hmaxeq
      · -- both extremes are the sum of the range and the mean
        rw [if_pos hm, if_pos hr, div_eq_div_iff hm hr] at hmaxeq hmineq
        have hzero : (valueRange v - mean v) * (a - b) = 0 := by linear_combination hmaxeq - hmineq
        rw [← hrange] at hzero
        exact hne (sub_eq_zero.mp ((mul_eq_zero.mp hzero).resolve_right hr))
  · intro h
    rw [h]

end Column

/-! ## All columns -/

section Columns
variable {g : GslRows} (hg : g.Documented) {a : List (List ℚ)} {m n j : Nat} {v : List ℚ}

theorem setColumn_isMatrix (ha : IsMatrix a m n) (hv : v.length = m) (j : Nat) : IsMatrix (setColumn a j v) m n where
  rows := by
    unfold setColumn
    rw [List.length_zipWith, ha.rows, hv, min_self]
  columns row hrow := by
    obtain ⟨r, hr⟩ := List.mem_iff_getElem?.mp hrow
    obtain ⟨row', x, hrow', -, rfl⟩ := List.getElem?_zipWith_eq_some.mp hr
    rw [List.length_set]
    exact ha.columns row' (List.mem_of_getElem? hrow')

/-- A column that was written, and the others. -/
theorem column_setColumn (ha : IsMatrix a m n) (hv : v.length = m) {t : Nat} (ht : t < n) :
    column (setColumn a j v) t = if t = j then v else column a t := by
  have hlen : (column (setColumn a j v) t).length = m := (List.length_map _).trans (setColumn_isMatrix ha hv j).rows
  refine List.ext_getElem? fun r => ?_
  by_cases hr : r < m
  · obtain ⟨row, hrow⟩ : ∃ row, a[r]? = some row := ⟨_, List.getElem?_eq_getElem (ha.rows ▸ hr)⟩
    obtain ⟨x, hx⟩ : ∃ x, v[r]? = some x := ⟨_, List.getElem?_eq_getElem (hv ▸ hr)⟩
    have hset : (setColumn a j v)[r]? = some (row.set j x) :=
      List.getElem?_zipWith_eq_some.mpr ⟨row, x, hrow, hx, rfl⟩
    have hcol : t < row.length := (ha.columns row (List.mem_of_getElem? hrow)).symm ▸ ht
    rw [column, List.getElem?_map, hset, Option.map_some, List.getD_eq_getElem?_getD]
    split_ifs with h
    · subst h
      rw [List.getElem?_set_self hcol, Option.getD_some, hx]
    · rw [List.getElem?_set_ne (Ne.symm h), column, List.getElem?_map, hrow, Option.map_some, List.getD_eq_getElem?_getD]
  · rw [List.getElem?_eq_none (hlen.symm ▸ Nat.not_lt.mp hr)]
    split_ifs with h
    · rw [List.getElem?_eq_none (hv.symm ▸ Nat.not_lt.mp hr)]
    · rw [column, List.getElem?_eq_none ((List.length_map _).trans ha.rows ▸ Nat.not_lt.mp hr)]

include hg

/-- The columns are normalized one after the other. -/
theorem gslMatrixNormalizeColumns_spec (ha : IsMatrix a m n) (hj : j ≤ n) :
    IsMatrix (gslMatrixNormalizeColumns g a j).1 m n ∧
      (∀ t < n, column (gslMatrixNormalizeColumns g a j).1 t =
        if t < j then (gslVectorNormalize g (column a t)).1 else column a t) ∧
      (gslMatrixNormalizeColumns g a j).2 = (List.range j).map fun t => (gslVectorNormalize g (column a t)).2 := by
  induction j with
  | zero => exact ⟨ha, fun t _ => (if_neg (Nat.not_lt_zero t)).symm, rfl⟩
  | succ j ih =>
    obtain ⟨hmatrix, hcolumns, hscales⟩ := ih (Nat.le_of_succ_le hj)
    have hown : g.matrixColumn (gslMatrixNormalizeColumns g a j).1 j = column a j := by
      rw [hg.matrixColumn hmatrix hj, hcolumns j hj, if_neg (lt_irrefl j)]
    have hlast : gslMatrixNormalizeColumns g a (j + 1) =
        (setColumn (gslMatrixNormalizeColumns g a j).1 j (gslVectorNormalize g (column a j)).1,
          (gslMatrixNormalizeColumns g a j).2 ++ [(gslVectorNormalize g (column a j)).2]) := by
      rw [← hown]
      unfold gslMatrixNormalizeColumns
      rw [List.range_succ, List.foldl_append]
      rfl
    have hlen : (gslVectorNormalize g (column a j)).1.length = m := by
      rw [gslVectorNormalize_length hg, column, List.length_map, ha.rows]
    rw [hlast]
    refine ⟨setColumn_isMatrix hmatrix hlen j, fun t ht => ?_, ?_⟩
    · rw [column_setColumn hmatrix hlen ht, hcolumns t ht]
      by_cases htj : t = j
      · subst htj
        rw [if_pos rfl, if_pos (Nat.lt_succ_self t)]
      · have hlt : t < j + 1 ↔ t < j := by omega
        rw [if_neg htj]
        simp only [hlt]
    · rw [hscales, List.range_succ, List.map_append]
      rfl

/-- **In exact arithmetic the returned scaling undoes what was done to a column, and the column is standardized exactly
when its range is its mean.** -/
theorem normalizeColumns_exact (ha : IsMatrix a m n) (hm : 0 < m) {t : Nat} (ht : t < n) :
    ∃ s, (gslMatrixNormalizeColumns g a n).2[t]? = some s ∧
      (column (gslMatrixNormalizeColumns g a n).1 t).map s.undo = column a t ∧
      (column (gslMatrixNormalizeColumns g a n).1 t = standardized (column a t) ↔
        valueRange (column a t) = mean (column a t)) := by
  obtain ⟨-, hcolumns, hscales⟩ := gslMatrixNormalizeColumns_spec hg ha (le_refl n)
  have hne : column a t ≠ [] := List.length_pos_iff.mp ((List.length_map _).trans ha.rows ▸ hm)
  rw [hcolumns t ht, if_pos ht, hscales, List.getElem?_map, List.getElem?_range ht]
  exact ⟨_, rfl, gslVectorNormalize_undo hg hne, gslVectorNormalize_iff hg hne⟩

omit hg in
/-- The second column of this matrix, whose range is not its mean. -/
theorem normalizeColumns_exact_two : ∃ s, (gslMatrixNormalizeColumns exactRows [[1, 0], [3, 6]] 2).2[1]? = some s ∧
    (column (gslMatrixNormalizeColumns exactRows [[1, 0], [3, 6]] 2).1 1).map s.undo = column [[1, 0], [3, 6]] 1 ∧
    (column (gslMatrixNormalizeColumns exactRows [[1, 0], [3, 6]] 2).1 1 = standardized (column [[1, 0], [3, 6]] 1) ↔
      valueRange (column ([[1, 0], [3, 6]] : List (List ℚ)) 1) = mean (column [[1, 0], [3, 6]] 1)) :=
  normalizeColumns_exact exactRows_documented (m := 2) ⟨rfl, by decide⟩ (by decide) (by decide)

end Columns

/-! ## The clustering of a window -/

section Window
variable {g : GslRows} {d : Sizes} {events samples : List ℚ}

theorem window_isMatrix (d : Sizes) (events : List ℚ) : IsMatrix (window d events) d.rows d.tda where
  rows := by rw [window, List.length_map, List.length_range]
  columns row hrow := by
    obtain ⟨r, -, rfl⟩ := List.mem_map.mp hrow
    rw [List.length_map, List.length_range]

/-- The rows that `clustering` gives to `kmean`. -/
def normalizedWindow (g : GslRows) (d : Sizes) (events : List ℚ) : List (List ℚ) :=
  (gslMatrixNormalizeColumns g (window d events) d.tda).1

theorem normalizedWindow_isMatrix (hg : g.Documented) (d : Sizes) (events : List ℚ) :
    IsMatrix (normalizedWindow g d events) d.rows d.tda :=
  (gslMatrixNormalizeColumns_spec hg (window_isMatrix d events) (le_refl d.tda)).1

/-- The samples behind the last loop: the first are labels, the others are left alone. -/
def Labelled (samples : List ℚ) (n : Nat) (label : Nat → Nat) (samples' : List ℚ) : Prop :=
  ∀ i, samples'[i]? = if i < n then some (label i : ℚ) else samples[i]?

theorem writeLabels (hg : g.Documented) {label : List Nat} {f : Nat → Nat} {n : Nat}
    (hlabel : ∀ i < n, label[i]? = some (f i)) (hn : n ≤ samples.length) :
    ∃ samples', forLoop (fun i (samples : List ℚ) => do .ok (samples.set i (← g.ulongGet label i))) n samples =
      .ok samples' ∧ Labelled samples n f samples' := by
  obtain ⟨samples', hloop, -, hsamples⟩ := forLoop_inv (n := n)
    (f := fun i (samples : List ℚ) => do .ok (samples.set i (← g.ulongGet label i))) (s := samples)
    (I := fun i samples' => samples'.length = samples.length ∧ Labelled samples i f samples')
    ⟨rfl, fun i => (if_neg (Nat.not_lt_zero i)).symm⟩ fun i hi s hs => by
      obtain ⟨hlen, hs⟩ := hs
      refine ⟨s.set i (f i), ?_, List.length_set.trans hlen, fun i' => ?_⟩
      · simp only [hg.ulongGet (hlabel i hi), bind, Except.bind]
      · rcases Nat.lt_trichotomy i' i with h | rfl | h
        · rw [List.getElem?_set_ne h.ne', hs i', if_pos h, if_pos (Nat.lt_succ_of_lt h)]
        · rw [List.getElem?_set_self (hlen.symm ▸ lt_of_lt_of_le hi hn), if_pos (Nat.lt_succ_self i')]
        · rw [List.getElem?_set_ne h.ne, hs i', if_neg (Nat.not_lt.mpr h.le), if_neg (Nat.not_lt.mpr h)]
  exact ⟨samples', hloop, hsamples⟩

/-- What `clustering` does to a window: it labels it, ends the program, keeps the labels that the memory had, or writes
outside of the centroids. -/
structure Clusters (g : GslRows) (mem : CentroidsMemory) (rand : Nat → Nat) (d : Sizes) (events samples : List ℚ) :
    Prop where
  clustered : d.nEvents = 1 → 2 < d.rows → ∃ c samples',
    kmean g mem rand (normalizedWindow g d events) d.rows 2 2 = .ok c ∧
      Consistent (normalizedWindow g d events) d.rows 2 2 c ∧ clustering g mem rand d events samples = .ok samples' ∧
      Labelled samples (min d.rows d.nSamples) (fun i => c.label.getD i 0) samples'
  ends : d.nEvents ≠ 1 → 2 < d.rows → clustering g mem rand d events samples = .error .badLength
  uninitialized : d.nEvents ≤ 1 → d.rows ≤ 2 → ∃ samples', clustering g mem rand d events samples = .ok samples' ∧
    Labelled samples (min d.rows d.nSamples) mem.label samples'
  overflows : 1 < d.nEvents → d.rows ≤ 2 → clustering g mem rand d events samples = .error .outOfBounds

/-- **What becomes of a window that has rows.** -/
theorem clustering_exact (hg : g.Documented) (mem : CentroidsMemory) (rand : Nat → Nat) (hrows : 0 < d.rows)
    (hfit : d.rows * (d.nEvents + 1) < 2 ^ 32) (hsamples : samples.length = d.nSamples) :
    Clusters g mem rand d events samples := by
  have hmatrix := normalizedWindow_isMatrix hg d events
  have hle : d.rows ≤ d.rows * (d.nEvents + 1) := Nat.le_mul_of_pos_right _ (Nat.succ_pos _)
  have hle' : d.nEvents + 1 ≤ d.rows * (d.nEvents + 1) := Nat.le_mul_of_pos_left _ hrows
  have htda : d.tda = d.nEvents + 1 := Nat.mod_eq_of_lt (hle'.trans_lt hfit)
  have hu : u32 d.rows = d.rows := Nat.mod_eq_of_lt (hle.trans_lt hfit)
  have hn : min d.rows d.nSamples ≤ samples.length := hsamples ▸ min_le_right _ _
  have hcluster {c : Centroids} (hc : kmean g mem rand (normalizedWindow g d events) d.rows d.tda 2 = .ok c) :
      clustering g mem rand d events samples = forLoop (fun i (samples : List ℚ) => do
        .ok (samples.set i (← g.ulongGet c.label i))) (min d.rows d.nSamples) samples := by
    show kmean g mem rand (normalizedWindow g d events) d.rows d.tda 2 >>= _ = _
    rw [hc]
    rfl
  have hfails {e : GslError} (hc : kmean g mem rand (normalizedWindow g d events) d.rows d.tda 2 = .error e) :
      clustering g mem rand d events samples = .error e := by
    show kmean g mem rand (normalizedWindow g d events) d.rows d.tda 2 >>= _ = _
    rw [hc]
    rfl
  have htda32 : u32 d.tda = d.nEvents + 1 := by
    rw [htda]
    exact Nat.mod_eq_of_lt (hle'.trans_lt hfit)
  have hsize : u32 (u32 d.rows * u32 d.tda) = d.rows * (d.nEvents + 1) := by
    rw [hu, htda32]
    exact Nat.mod_eq_of_lt hfit
  refine ⟨fun hone hlt => ?_, fun hne hlt => ?_, fun hone hshort => ?_, fun hmore hshort => ?_⟩
  · have htwo : d.tda = 2 := by rw [htda, hone]
    rw [htwo] at hmatrix hcluster
    obtain ⟨c, hc, -, hconsistent⟩ := kmean_iterated hg hmatrix two_pos (by decide) (hu.symm ▸ hlt) mem rand
    rw [hu] at hconsistent
    have hlabel : ∀ i < min d.rows d.nSamples, c.label[i]? = some (c.label.getD i 0) := by
      intro i hi
      obtain ⟨l, -, hl⟩ := hconsistent.labelled i (hi.trans_le (min_le_left _ _))
      rw [List.getD_eq_getElem?_getD, hl, Option.getD_some]
    obtain ⟨samples', hloop, hlabelled⟩ := writeLabels hg hlabel hn
    exact ⟨c, samples', hc, hconsistent, (hcluster hc).trans hloop, hlabelled⟩
  · exact hfails (kmean_badLength hg hmatrix two_pos (hu.symm ▸ hlt) (by omega) mem rand)
  · have hroom : u32 (u32 d.rows * u32 d.tda) ≤ u32 d.rows * 2 := by
      rw [hsize, hu]
      exact Nat.mul_le_mul_left _ (Nat.succ_le_succ hone)
    have hkmean : kmean g mem rand (normalizedWindow g d events) d.rows d.tda 2 = _ := kmean_of_le (hu.symm ▸ hshort) mem rand
    have hc := hkmean.trans (if_pos hroom)
    have hmemory : ∀ i < min d.rows d.nSamples, (g.ulongAlloc mem.label (u32 d.rows))[i]? = some (mem.label i) := by
      intro i hi
      rw [hg.ulongAlloc, hu, List.getElem?_map, List.getElem?_range (hi.trans_le (min_le_left _ _))]
      rfl
    obtain ⟨samples', hloop, hlabelled⟩ := writeLabels hg hmemory hn
    exact ⟨samples', (hcluster hc).trans hloop, hlabelled⟩
  · have hroom : ¬ u32 (u32 d.rows * u32 d.tda) ≤ u32 d.rows * 2 := by
      rw [hsize, hu]
      exact Nat.not_le.mpr (Nat.mul_lt_mul_of_pos_left (Nat.succ_lt_succ hmore) hrows)
    exact hfails ((kmean_of_le (hu.symm ▸ hshort) mem rand).trans (if_neg hroom))

/-- A window of three rows of one event and the timestamp. -/
theorem clustering_exact_three :
    Clusters exactRows ⟨fun _ _ => 0, fun _ => 7, fun _ => 0⟩ (fun _ => 0) ⟨1, 3, 3, 2, 3⟩ [1, 10, 2, 20, 9, 30]
      [0, 0, 0] :=
  clustering_exact exactRows_documented _ _ (by decide) (by decide) rfl

end Window

end Hmon
