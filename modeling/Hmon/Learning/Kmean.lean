import Hmon.Learning.Linreg
import Hmon.Lib.Loops
import Hmon.Lib.Stats
import Hmon.Lib.Vectors

/-!
# Clustering (`kmean.c`)

* `GslRows` : the functions of the library that `kmean.c` and `features.c` call, and the errors that end the program;
  `GslRows.Documented` : what its manual says of them;
* `Centroids`, `newCentroids`, `centroidsInit`, `centroidsColor`, `centroidsCenter`, `kmean` : the functions of
  `kmean.c`, from any memory that is allocated and any random numbers;
* `Consistent` : every point has a label, and every centroid with points is their mean;
* `kmean_iff` : **the clustering ends so exactly when there is no point, or there are fewer clusters than points and as
  many as coordinates**: the matrix of centroids has a row for each point and a column for each cluster.
-/

namespace Hmon
open Lib

/-! ## The library -/

/-- What ends the program: an error of the library, or a write out of a matrix. -/
inductive GslError
  | badLength
  | badIndex
  | outOfBounds
  deriving DecidableEq

/-- The library. Vectors are lists and matrices lists of rows; memory that is allocated holds anything. -/
structure GslRows where
  matrixAlloc : (memory : Nat → Nat → ℚ) → (m n : Nat) → List (List ℚ)
  matrixSetZero : List (List ℚ) → List (List ℚ)
  matrixRow : List (List ℚ) → (i : Nat) → Except GslError (List ℚ)
  matrixColumn : List (List ℚ) → (j : Nat) → List ℚ
  vectorCalloc : (n : Nat) → List ℚ
  /-- What `dest` then holds. -/
  vectorMemcpy : (dest src : List ℚ) → Except GslError (List ℚ)
  vectorAdd : List ℚ → List ℚ → Except GslError (List ℚ)
  vectorSub : List ℚ → List ℚ → Except GslError (List ℚ)
  vectorScale : List ℚ → ℚ → List ℚ
  vectorAddConstant : List ℚ → ℚ → List ℚ
  vectorMax : List ℚ → ℚ
  vectorMin : List ℚ → ℚ
  statsMean : List ℚ → ℚ
  blasDdot : List ℚ → List ℚ → Except GslError ℚ
  ulongAlloc : (memory : Nat → Nat) → (n : Nat) → List Nat
  ulongSetZero : List Nat → List Nat
  ulongGet : List Nat → (i : Nat) → Except GslError Nat
  ulongSet : List Nat → (i x : Nat) → Except GslError (List Nat)

/-- Its manual, in exact arithmetic. The error handler, which ends the program, gets `badLength` for vectors of different
sizes and `badIndex` for an index out of range. -/
structure GslRows.Documented (g : GslRows) : Prop where
  matrixAlloc : ∀ memory m n, g.matrixAlloc memory m n = (List.range m).map fun i => (List.range n).map (memory i)
  matrixSetZero : ∀ a, g.matrixSetZero a = a.map fun row => row.map fun _ => 0
  matrixRow : ∀ {a i row}, a[i]? = some row → g.matrixRow a i = .ok row
  matrixColumn : ∀ {a m n j}, IsMatrix a m n → j < n → g.matrixColumn a j = column a j
  vectorCalloc : ∀ n, g.vectorCalloc n = List.replicate n 0
  vectorMemcpy : ∀ {dest src}, dest.length = src.length → g.vectorMemcpy dest src = .ok src
  vectorMemcpy_ne : ∀ {dest src}, dest.length ≠ src.length → g.vectorMemcpy dest src = .error .badLength
  vectorAdd : ∀ {xs ys}, xs.length = ys.length → g.vectorAdd xs ys = .ok (addVec xs ys)
  vectorSub : ∀ {xs ys}, xs.length = ys.length → g.vectorSub xs ys = .ok (combine 1 xs (-1) ys)
  vectorScale : ∀ xs c, g.vectorScale xs c = xs.map (· * c)
  vectorAddConstant : ∀ xs c, g.vectorAddConstant xs c = xs.map (· + c)
  vectorMax : ∀ {xs}, xs ≠ [] → xs.max? = some (g.vectorMax xs)
  vectorMin : ∀ {xs}, xs ≠ [] → xs.min? = some (g.vectorMin xs)
  statsMean : ∀ {xs}, xs ≠ [] → g.statsMean xs = mean xs
  blasDdot : ∀ {xs ys}, xs.length = ys.length → g.blasDdot xs ys = .ok (dot xs ys)
  ulongAlloc : ∀ memory n, g.ulongAlloc memory n = (List.range n).map memory
  ulongSetZero : ∀ v, g.ulongSetZero v = v.map fun _ => 0
  ulongGet : ∀ {v i x}, v[i]? = some x → g.ulongGet v i = .ok x
  ulongSet : ∀ {v i} x, i < v.length → g.ulongSet v i x = .ok (v.set i x)
  ulongSet_out : ∀ {v i} x, v.length ≤ i → g.ulongSet v i x = .error .badIndex

/-- A library that does what the manual says. -/
def exactRows : GslRows where
  matrixAlloc memory m n := (List.range m).map fun i => (List.range n).map (memory i)
  matrixSetZero a := a.map fun row => row.map fun _ => 0
  matrixRow a i := (a[i]?).elim (.error .badIndex) .ok
  matrixColumn := column
  vectorCalloc n := List.replicate n 0
  vectorMemcpy dest src := if dest.length = src.length then .ok src else .error .badLength
  vectorAdd xs ys := if xs.length = ys.length then .ok (addVec xs ys) else .error .badLength
  vectorSub xs ys := if xs.length = ys.length then .ok (combine 1 xs (-1) ys) else .error .badLength
  vectorScale xs c := xs.map (· * c)
  vectorAddConstant xs c := xs.map (· + c)
  vectorMax xs := xs.max?.getD 0
  vectorMin xs := xs.min?.getD 0
  statsMean := mean
  blasDdot xs ys := if xs.length = ys.length then .ok (dot xs ys) else .error .badLength
  ulongAlloc memory n := (List.range n).map memory
  ulongSetZero v := v.map fun _ => 0
  ulongGet v i := (v[i]?).elim (.error .badIndex) .ok
  ulongSet v i x := if i < v.length then .ok (v.set i x) else .error .badIndex

theorem exactRows_documented : exactRows.Documented where
  matrixAlloc _ _ _ := rfl
  matrixSetZero _ := rfl
  matrixRow h := by simp only [exactRows, h, Option.elim_some]
  matrixColumn _ _ := rfl
  vectorCalloc _ := rfl
  vectorMemcpy h := if_pos h
  vectorMemcpy_ne h := if_neg h
  vectorAdd h := if_pos h
  vectorSub h := if_pos h
  vectorScale _ _ := rfl
  vectorAddConstant _ _ := rfl
  vectorMax {xs} h := by
    cases hm : xs.max? with
    | none => exact absurd (List.max?_eq_none_iff.mp hm) h
    | some a => simp only [exactRows, hm, Option.getD_some]
  vectorMin {xs} h := by
    cases hm : xs.min? with
    | none => exact absurd (List.min?_eq_none_iff.mp hm) h
    | some a => simp only [exactRows, hm, Option.getD_some]
  statsMean _ := rfl
  blasDdot h := if_pos h
  ulongAlloc _ _ := rfl
  ulongSetZero _ := rfl
  ulongGet h := by simp only [exactRows, h, Option.elim_some]
  ulongSet _ h := if_pos h
  ulongSet_out _ h := if_neg (Nat.not_lt.mpr h)

/-! ## The functions of `kmean.c` -/

/-- `struct centroids` -/
structure Centroids where
  m : Nat
  n : Nat
  k : Nat
  centroids : List (List ℚ)
  label : List Nat
  nlab : List Nat

/-- What allocated memory contains. -/
structure CentroidsMemory where
  centroids : Nat → Nat → ℚ
  label : Nat → Nat
  nlab : Nat → Nat

section Functions
variable (g : GslRows)

def newCentroids (mem : CentroidsMemory) (m n k : Nat) : Centroids where
  m := m
  n := n
  k := k
  centroids := g.matrixAlloc mem.centroids m k
  label := g.ulongAlloc mem.label m
  nlab := g.ulongAlloc mem.nlab k

def centroidsInit (rand : Nat → Nat) (points : List (List ℚ)) (c : Centroids) : Except GslError Centroids :=
  forLoop (fun i c => do
    let centroid ← g.matrixRow c.centroids i
    let point ← g.matrixRow points (rand i % c.m)
    let centroid ← g.vectorMemcpy centroid point
    .ok { c with centroids := c.centroids.set i centroid }) c.k c

/-- The loop over the centroids: the smallest distance and its centroid, which is `colorAssign` as long as no distance
is below `DBL_MAX`. -/
def nearest (c : Centroids) (point : List ℚ) (colorAssign : Nat) : Except GslError (ℚ × Nat) :=
  forLoop (fun j s => do
    let centroid ← g.matrixRow c.centroids j
    let diff ← g.vectorMemcpy (g.vectorCalloc c.n) point
    let diff ← g.vectorSub diff centroid
    let distance ← g.blasDdot diff diff
    .ok (if distance < s.1 then (distance, j) else s)) c.k (Double.dblMax, colorAssign)

/-- One point: the centroids, and `color_assign` for the next point. -/
def colorPoint (points : List (List ℚ)) (i : Nat) (s : Centroids × Nat) : Except GslError (Centroids × Nat) := do
  let point ← g.matrixRow points i
  let (_, colorAssign) ← nearest g s.1 point s.2
  let label ← g.ulongSet s.1.label i colorAssign
  let count ← g.ulongGet s.1.nlab colorAssign
  let nlab ← g.ulongSet s.1.nlab colorAssign (1 + count)
  .ok ({ s.1 with label := label, nlab := nlab }, colorAssign)

def centroidsColor (points : List (List ℚ)) (c : Centroids) : Except GslError Centroids := do
  let (c, _) ← forLoop (colorPoint g points) c.m ({ c with nlab := g.ulongSetZero c.nlab }, 0)
  .ok c

def addPoint (points : List (List ℚ)) (i : Nat) (c : Centroids) : Except GslError Centroids := do
  let label ← g.ulongGet c.label i
  let centroid ← g.matrixRow c.centroids label
  let point ← g.matrixRow points i
  let centroid ← g.vectorAdd centroid point
  .ok { c with centroids := c.centroids.set label centroid }

def scaleCentroid (i : Nat) (c : Centroids) : Except GslError Centroids := do
  let nlab ← g.ulongGet c.nlab i
  let centroid ← g.matrixRow c.centroids i
  if nlab ≠ 0 then .ok { c with centroids := c.centroids.set i (g.vectorScale centroid (1 / nlab)) } else .ok c

def centroidsCenter (points : List (List ℚ)) (c : Centroids) : Except GslError Centroids := do
  let c ← forLoop (addPoint g points) c.m { c with centroids := g.matrixSetZero c.centroids }
  forLoop (scaleCentroid g) c.k c

/-- The `memcpy` of the points into the data of the matrix of centroids. -/
def copyPoints (points : List (List ℚ)) (c : Centroids) : Except GslError Centroids :=
  let size := u32 (c.m * c.n)
  if size ≤ c.m * c.k then
    let data := points.flatten.take size ++ (List.replicate (c.m * c.k) 0).drop size
    .ok { c with centroids := (List.range c.m).map fun i => (data.drop (i * c.k)).take c.k }
  else .error .outOfBounds

/-- `size1` and `size2` are those of `points`. -/
def kmean (mem : CentroidsMemory) (rand : Nat → Nat) (points : List (List ℚ)) (size1 size2 nCentroids : Nat) :
    Except GslError Centroids :=
  let c := newCentroids g mem (u32 size1) (u32 size2) nCentroids
  if c.m ≤ c.k then copyPoints points c
  else do
    let c ← centroidsInit g rand points c
    forLoop (fun _ c => do centroidsCenter g points (← centroidsColor g points c)) maxIter c

end Functions

/-! ## What a clustering is -/

/-- The first `i` points with the label `l`. -/
def members (points : List (List ℚ)) (label : List Nat) (i l : Nat) : List (List ℚ) :=
  ((List.range i).filter fun i' => label[i']? = some l).map fun i' => points.getD i' []

/-- The sum and the mean of points with `n` coordinates. -/
def sumVec (n : Nat) (points : List (List ℚ)) : List ℚ := (List.range n).map fun t => (column points t).sum

def meanVec (n : Nat) (points : List (List ℚ)) : List ℚ := (List.range n).map fun t => mean (column points t)

structure Consistent (points : List (List ℚ)) (m n k : Nat) (c : Centroids) : Prop where
  labelled : ∀ i < m, ∃ l < k, c.label[i]? = some l
  means : ∀ l < k, members points c.label m l ≠ [] →
    c.centroids[l]? = some (meanVec n (members points c.label m l))

/-- A label for each point needs room for it. -/
theorem Consistent.le_length {points : List (List ℚ)} {m n k : Nat} {c : Centroids} (h : Consistent points m n k c) :
    m ≤ c.label.length := by
  by_contra hlt
  obtain ⟨l, -, hlabel⟩ := h.labelled c.label.length (Nat.not_le.mp hlt)
  rw [List.getElem?_eq_none (Nat.le_refl _)] at hlabel
  cases hlabel

/-! ## Sums and members -/

section Members
variable {points : List (List ℚ)} {label : List Nat} {i l n : Nat}

theorem sumVec_nil (n : Nat) : sumVec n [] = List.replicate n 0 := by
  unfold sumVec
  rw [List.eq_replicate_iff]
  refine ⟨by rw [List.length_map, List.length_range], fun x hx => ?_⟩
  obtain ⟨t, -, rfl⟩ := List.mem_map.mp hx
  rfl

theorem sumVec_snoc {point : List ℚ} (h : point.length = n) (points : List (List ℚ)) :
    sumVec n (points ++ [point]) = addVec (sumVec n points) point := by
  have hpoint : point = (List.range n).map fun t => point.getD t 0 := (map_range_getD h).symm
  unfold sumVec addVec
  conv_rhs => rw [hpoint, List.zipWith_map, List.zipWith_self]
  refine List.map_congr_left fun t _ => ?_
  rw [column, List.map_append, List.sum_append, List.map_singleton, List.sum_singleton]
  rfl

/-- A sum times the inverse of the number of points is their mean. -/
theorem sumVec_scaled (n : Nat) (points : List (List ℚ)) :
    (sumVec n points).map (fun x => x * (1 / (points.length : ℚ))) = meanVec n points := by
  unfold sumVec meanVec
  rw [List.map_map]
  refine List.map_congr_left fun t _ => ?_
  show (column points t).sum * (1 / (points.length : ℚ)) = (column points t).sum / (column points t).length
  rw [column, List.length_map, mul_one_div]

theorem members_zero : members points label 0 l = [] := rfl

theorem members_self (h : label[i]? = some l) :
    members points label (i + 1) l = members points label i l ++ [points.getD i []] := by
  unfold members
  rw [List.range_succ, List.filter_append, List.map_append, List.filter_cons_of_pos (by simpa using h)]
  rfl

theorem members_ne (h : label[i]? ≠ some l) : members points label (i + 1) l = members points label i l := by
  unfold members
  rw [List.range_succ, List.filter_append, List.map_append, List.filter_cons_of_neg (by simpa using h)]
  exact List.append_nil _

/-- Members depend on the labels so far only. -/
theorem members_set {j x : Nat} (h : i ≤ j) : members points (label.set j x) i l = members points label i l := by
  unfold members
  congr 1
  refine List.filter_congr fun i' hi' => ?_
  have hlt : i' < i := List.mem_range.mp hi'
  rw [List.getElem?_set_ne (by omega)]

end Members

/-! ## One operation at a time -/

section Operations
variable {a : List (List ℚ)} {m n : Nat} {i : Nat}

theorem GslRows.Documented.matrixRow_ok {g : GslRows} (hg : g.Documented) (ha : IsMatrix a m n) (hi : i < m) :
    ∃ row, a[i]? = some row ∧ g.matrixRow a i = .ok row ∧ row.length = n := by
  have hlt : i < a.length := by rw [ha.rows]; exact hi
  have hget : a[i]? = some a[i] := List.getElem?_eq_getElem hlt
  exact ⟨a[i], hget, hg.matrixRow hget, ha.columns _ (List.getElem_mem hlt)⟩

theorem GslRows.Documented.length_ulongSetZero {g : GslRows} (hg : g.Documented) (v : List Nat) :
    (g.ulongSetZero v).length = v.length := by
  rw [hg.ulongSetZero, List.length_map]

end Operations

/-! ## The clustering of points with as many coordinates as clusters -/

/-- The sizes that the loops rely on. -/
structure Centroids.Shape (m k : Nat) (c : Centroids) : Prop where
  sizeM : c.m = m
  sizeN : c.n = k
  sizeK : c.k = k
  centroids : IsMatrix c.centroids m k
  label : c.label.length = m
  nlab : c.nlab.length = k

section Iterated
variable {g : GslRows} (hg : g.Documented) {points : List (List ℚ)} {size1 m k : Nat} {c : Centroids}
include hg

theorem newCentroids_shape (mem : CentroidsMemory) (m k : Nat) : (newCentroids g mem m k k).Shape m k where
  sizeM := rfl
  sizeN := rfl
  sizeK := rfl
  centroids := by
    show IsMatrix (g.matrixAlloc mem.centroids m k) m k
    rw [hg.matrixAlloc]
    refine ⟨by simp, fun row hrow => ?_⟩
    obtain ⟨i, -, rfl⟩ := List.mem_map.mp hrow
    simp
  label := by simp [newCentroids, hg.ulongAlloc]
  nlab := by simp [newCentroids, hg.ulongAlloc]

theorem nearest_ok (hc : c.Shape m k) (hkm : k < m) {point : List ℚ} (hpoint : point.length = k) {colorAssign : Nat}
    (h : colorAssign < k) : ∃ s, nearest g c point colorAssign = .ok s ∧ s.2 < k := by
  unfold nearest
  rw [hc.sizeK]
  refine forLoop_inv (I := fun _ (s : ℚ × Nat) => s.2 < k) h fun j hj s hs => ?_
  obtain ⟨centroid, -, hcentroid, hlen⟩ := hg.matrixRow_ok hc.centroids (hj.trans hkm)
  have hdiff : g.vectorMemcpy (g.vectorCalloc c.n) point = .ok point := by
    rw [hg.vectorCalloc, hg.vectorMemcpy (by rw [List.length_replicate, hc.sizeN, hpoint])]
  have hsub : g.vectorSub point centroid = .ok (combine 1 point (-1) centroid) :=
    hg.vectorSub (hpoint.trans hlen.symm)
  have hdot (diff : List ℚ) : g.blasDdot diff diff = .ok (dot diff diff) := hg.blasDdot rfl
  simp only [hcentroid, hdiff, hsub, hdot, bind, Except.bind]
  refine ⟨_, rfl, ?_⟩
  split_ifs
  · exact hj
  · exact hs

variable (hpoints : IsMatrix points size1 k) (hsize : m ≤ size1)
include hpoints hsize

theorem centroidsInit_ok (rand : Nat → Nat) (hc : c.Shape m k) (hkm : k < m) :
    ∃ c', centroidsInit g rand points c = .ok c' ∧ c'.Shape m k := by
  unfold centroidsInit
  rw [hc.sizeK]
  refine forLoop_inv (I := fun _ (c : Centroids) => c.Shape m k) hc fun i hi c hc => ?_
  obtain ⟨centroid, -, hcentroid, hlen⟩ := hg.matrixRow_ok hc.centroids (hi.trans hkm)
  obtain ⟨point, -, hpoint, hlen'⟩ := hg.matrixRow_ok hpoints
    (lt_of_lt_of_le (Nat.mod_lt (rand i) (Nat.zero_lt_of_lt hkm)) hsize)
  have hcopy : g.vectorMemcpy centroid point = .ok point := hg.vectorMemcpy (hlen.trans hlen'.symm)
  refine ⟨{ c with centroids := c.centroids.set i point }, ?_,
    ⟨hc.sizeM, hc.sizeN, hc.sizeK, hc.centroids.set hlen' i, hc.label, hc.nlab⟩⟩
  simp only [hc.sizeM, hcentroid, hpoint, hcopy, bind, Except.bind]

/-- The first `i` points are labelled and counted. -/
structure Colored (points : List (List ℚ)) (m k i : Nat) (c : Centroids) : Prop where
  shape : c.Shape m k
  labelled : ∀ i' < i, ∃ l < k, c.label[i']? = some l
  counted : ∀ l < k, c.nlab[l]? = some (members points c.label i l).length

theorem colorPoint_ok (hkm : k < m) {i : Nat} (hi : i < m) {s : Centroids × Nat} (hs : Colored points m k i s.1)
    (hcolor : s.2 < k) : ∃ s', colorPoint g points i s = .ok s' ∧ Colored points m k (i + 1) s'.1 ∧ s'.2 < k := by
  obtain ⟨c, colorAssign⟩ := s
  obtain ⟨point, -, hpoint, hlen⟩ := hg.matrixRow_ok hpoints (lt_of_lt_of_le hi hsize)
  obtain ⟨⟨_, color⟩, hnearest, hlt⟩ := nearest_ok hg hs.shape hkm hlen hcolor
  have hlabel : i < c.label.length := by rw [hs.shape.label]; exact hi
  have hnlab : color < c.nlab.length := by rw [hs.shape.nlab]; exact hlt
  refine ⟨(⟨c.m, c.n, c.k, c.centroids, c.label.set i color,
    c.nlab.set color (1 + (members points c.label i color).length)⟩, color), ?_, ⟨?_, ?_, ?_⟩, hlt⟩
  · unfold colorPoint
    simp only [hpoint, hnearest, hg.ulongSet _ hlabel, hg.ulongGet (hs.counted color hlt),
      hg.ulongSet _ hnlab, bind, Except.bind]
  · exact ⟨hs.shape.sizeM, hs.shape.sizeN, hs.shape.sizeK, hs.shape.centroids, List.length_set.trans hs.shape.label,
      List.length_set.trans hs.shape.nlab⟩
  · intro i' hi'
    show ∃ l < k, (c.label.set i color)[i']? = some l
    rcases Nat.lt_succ_iff_lt_or_eq.mp hi' with hlt' | rfl
    · rw [List.getElem?_set_ne (by omega)]
      exact hs.labelled i' hlt'
    · exact ⟨color, hlt, List.getElem?_set_self hlabel⟩
  · intro l hl
    show (c.nlab.set color _)[l]? = some (members points (c.label.set i color) (i + 1) l).length
    have hself : (c.label.set i color)[i]? = some color := List.getElem?_set_self hlabel
    by_cases h : color = l
    · subst h
      rw [List.getElem?_set_self hnlab, members_self hself, members_set (le_refl i), List.length_append,
        List.length_singleton, add_comm]
    · rw [List.getElem?_set_ne h, members_ne (by rw [hself]; exact fun he => h (Option.some.inj he)),
        members_set (le_refl i)]
      exact hs.counted l hl

theorem centroidsColor_ok (hc : c.Shape m k) (hk : 0 < k) (hkm : k < m) :
    ∃ c', centroidsColor g points c = .ok c' ∧ Colored points m k m c' := by
  have hzero : g.ulongSetZero c.nlab = c.nlab.map fun _ => 0 := hg.ulongSetZero c.nlab
  have hstart : Colored points m k 0 { c with nlab := g.ulongSetZero c.nlab } := by
    refine ⟨⟨hc.sizeM, hc.sizeN, hc.sizeK, hc.centroids, hc.label, (hg.length_ulongSetZero _).trans hc.nlab⟩,
      fun i' hi' => absurd hi' (Nat.not_lt_zero _), fun l hl => ?_⟩
    have hlt : l < c.nlab.length := by rw [hc.nlab]; exact hl
    show (g.ulongSetZero c.nlab)[l]? = some 0
    rw [hzero, List.getElem?_map, List.getElem?_eq_getElem hlt]
    rfl
  obtain ⟨⟨c', color⟩, hloop, hcolored, -⟩ := forLoop_inv (f := colorPoint g points) (n := c.m)
    (I := fun i s => Colored points m k i s.1 ∧ s.2 < k) (s := ({ c with nlab := g.ulongSetZero c.nlab }, 0))
    ⟨hstart, hk⟩ fun i hi s hs => colorPoint_ok hg hpoints hsize hkm (hc.sizeM ▸ hi) hs.1 hs.2
  rw [hc.sizeM] at hcolored
  refine ⟨c', ?_, hcolored⟩
  unfold centroidsColor
  rw [hloop]
  rfl

/-- The centroids are the sums of the first `i` points. -/
structure Summed (points : List (List ℚ)) (m k i : Nat) (c : Centroids) : Prop where
  colored : Colored points m k m c
  sums : ∀ l < k, c.centroids[l]? = some (sumVec k (members points c.label i l))

omit hpoints hsize in
theorem Summed.start (hc : Colored points m k m c) (hkm : k < m) :
    Summed points m k 0 { c with centroids := g.matrixSetZero c.centroids } := by
  have hzero : ∀ row ∈ c.centroids, row.map (fun _ => (0 : ℚ)) = List.replicate k 0 := by
    intro row hrow
    rw [List.map_const', hc.shape.centroids.columns row hrow]
  rw [hg.matrixSetZero]
  refine ⟨⟨⟨hc.shape.sizeM, hc.shape.sizeN, hc.shape.sizeK, ⟨?_, fun row hrow => ?_⟩, hc.shape.label, hc.shape.nlab⟩,
    hc.labelled, hc.counted⟩, fun l hl => ?_⟩
  · exact (List.length_map _).trans hc.shape.centroids.rows
  · obtain ⟨row', hrow', rfl⟩ := List.mem_map.mp hrow
    rw [List.length_map, hc.shape.centroids.columns row' hrow']
  · obtain ⟨row, hget, -, -⟩ := hg.matrixRow_ok hc.shape.centroids (hl.trans hkm)
    show (c.centroids.map fun row => row.map fun _ => (0 : ℚ))[l]? = some (sumVec k (members points c.label 0 l))
    rw [List.getElem?_map, hget, Option.map_some, hzero row (List.mem_of_getElem? hget), members_zero, sumVec_nil]

theorem addPoint_ok (hkm : k < m) {i : Nat} (hi : i < m) (hc : Summed points m k i c) :
    ∃ c', addPoint g points i c = .ok c' ∧ Summed points m k (i + 1) c' := by
  obtain ⟨label, hlt, hlabel⟩ := hc.colored.labelled i hi
  obtain ⟨centroid, hcentroid, hrow, hlen⟩ := hg.matrixRow_ok hc.colored.shape.centroids (hlt.trans hkm)
  obtain ⟨point, hpoint, hrow', hlen'⟩ := hg.matrixRow_ok hpoints (lt_of_lt_of_le hi hsize)
  obtain rfl := Option.some.inj (hcentroid.symm.trans (hc.sums label hlt))
  have hadd : g.vectorAdd (sumVec k (members points c.label i label)) point =
      .ok (addVec (sumVec k (members points c.label i label)) point) := hg.vectorAdd (hlen.trans hlen'.symm)
  have hgetD : points.getD i [] = point := by rw [List.getD_eq_getElem?_getD, hpoint, Option.getD_some]
  refine ⟨{ c with centroids := c.centroids.set label (addVec (sumVec k (members points c.label i label)) point) }, ?_,
    ⟨⟨⟨hc.colored.shape.sizeM, hc.colored.shape.sizeN, hc.colored.shape.sizeK, ?_, hc.colored.shape.label,
      hc.colored.shape.nlab⟩, hc.colored.labelled, hc.colored.counted⟩, fun l hl => ?_⟩⟩
  · unfold addPoint
    simp only [hg.ulongGet hlabel, hrow, hrow', hadd, bind, Except.bind]
  · exact hc.colored.shape.centroids.set ((length_addVec (hlen.trans hlen'.symm)).trans hlen') label
  · show (c.centroids.set label _)[l]? = some (sumVec k (members points c.label (i + 1) l))
    by_cases h : label = l
    · subst h
      have hin : label < c.centroids.length := by rw [hc.colored.shape.centroids.rows]; exact hlt.trans hkm
      rw [List.getElem?_set_self hin, members_self hlabel, hgetD, sumVec_snoc hlen']
    · rw [List.getElem?_set_ne h, members_ne (by rw [hlabel]; exact fun he => h (Option.some.inj he))]
      exact hc.sums l hl

/-- The first `j` centroids are means where they have points, the others sums. -/
structure Scaled (points : List (List ℚ)) (m k j : Nat) (c : Centroids) : Prop where
  colored : Colored points m k m c
  means : ∀ l < j, members points c.label m l ≠ [] → c.centroids[l]? = some (meanVec k (members points c.label m l))
  sums : ∀ l < k, j ≤ l → c.centroids[l]? = some (sumVec k (members points c.label m l))

omit hpoints hsize in
theorem scaleCentroid_ok (hkm : k < m) {j : Nat} (hj : j < k) (hc : Scaled points m k j c) :
    ∃ c', scaleCentroid g j c = .ok c' ∧ Scaled points m k (j + 1) c' := by
  obtain ⟨centroid, hcentroid, hrow, hlen⟩ := hg.matrixRow_ok hc.colored.shape.centroids (hj.trans hkm)
  obtain rfl := Option.some.inj (hcentroid.symm.trans (hc.sums j hj (le_refl j)))
  have hcount := hg.ulongGet (hc.colored.counted j hj)
  by_cases hempty : members points c.label m j = []
  · refine ⟨c, ?_, hc.colored, fun l hl hne => ?_, fun l hl hjl => hc.sums l hl (Nat.le_of_succ_le hjl)⟩
    · unfold scaleCentroid
      rw [hempty] at hcount
      simp only [hcount, hrow, bind, Except.bind, List.length_nil, ne_eq, not_true_eq_false, if_false]
    · rcases Nat.lt_succ_iff_lt_or_eq.mp hl with hlt | rfl
      · exact hc.means l hlt hne
      · exact absurd hempty hne
  · have hne : (members points c.label m j).length ≠ 0 := fun h => hempty (List.length_eq_zero_iff.mp h)
    have hin : j < c.centroids.length := by rw [hc.colored.shape.centroids.rows]; exact hj.trans hkm
    refine ⟨{ c with centroids := c.centroids.set j (meanVec k (members points c.label m j)) }, ?_,
      ⟨⟨hc.colored.shape.sizeM, hc.colored.shape.sizeN, hc.colored.shape.sizeK, ?_, hc.colored.shape.label,
        hc.colored.shape.nlab⟩, hc.colored.labelled, hc.colored.counted⟩, fun l hl hmem => ?_, fun l hl hjl => ?_⟩
    · unfold scaleCentroid
      simp only [hcount, hrow, bind, Except.bind, if_pos hne, hg.vectorScale, sumVec_scaled]
    · exact hc.colored.shape.centroids.set (by rw [meanVec, List.length_map, List.length_range]) j
    · show (c.centroids.set j _)[l]? = some (meanVec k (members points c.label m l))
      rcases Nat.lt_succ_iff_lt_or_eq.mp hl with hlt | rfl
      · rw [List.getElem?_set_ne (by omega)]
        exact hc.means l hlt hmem
      · exact List.getElem?_set_self hin
    · show (c.centroids.set j _)[l]? = some (sumVec k (members points c.label m l))
      rw [List.getElem?_set_ne (by omega)]
      exact hc.sums l hl (Nat.le_of_succ_le hjl)

theorem centroidsCenter_ok (hkm : k < m) (hc : Colored points m k m c) :
    ∃ c', centroidsCenter g points c = .ok c' ∧ Scaled points m k k c' := by
  obtain ⟨c₁, h₁, hsummed⟩ := forLoop_inv (f := addPoint g points) (n := c.m)
    (I := fun i c => Summed points m k i c) (Summed.start hg hc hkm)
    fun i hi c' hc' => addPoint_ok hg hpoints hsize hkm (hc.shape.sizeM ▸ hi) hc'
  rw [hc.shape.sizeM] at hsummed
  obtain ⟨c₂, h₂, hscaled⟩ := forLoop_inv (f := scaleCentroid g) (n := c₁.k) (I := fun j c => Scaled points m k j c)
    ⟨hsummed.colored, fun l hl => absurd hl (Nat.not_lt_zero l), fun l hl _ => hsummed.sums l hl⟩
    fun j hj c' hc' => scaleCentroid_ok hg hkm (hsummed.colored.shape.sizeK ▸ hj) hc'
  rw [hsummed.colored.shape.sizeK] at hscaled
  refine ⟨c₂, ?_, hscaled⟩
  unfold centroidsCenter
  rw [h₁]
  exact h₂

end Iterated

theorem Scaled.consistent {points : List (List ℚ)} {m k : Nat} {c : Centroids} (h : Scaled points m k k c) :
    Consistent points m k k c :=
  ⟨h.colored.labelled, h.means⟩

/-! ## All points -/

section Kmean
variable {g : GslRows} {points : List (List ℚ)} {m n k : Nat}

theorem kmean_of_le (h : u32 m ≤ k) (mem : CentroidsMemory) (rand : Nat → Nat) :
    kmean g mem rand points m n k = copyPoints points (newCentroids g mem (u32 m) (u32 n) k) := if_pos h

theorem kmean_of_lt (h : k < u32 m) (mem : CentroidsMemory) (rand : Nat → Nat) : kmean g mem rand points m n k =
    centroidsInit g rand points (newCentroids g mem (u32 m) (u32 n) k) >>= fun c =>
      forLoop (fun _ c => do centroidsCenter g points (← centroidsColor g points c)) maxIter c :=
  if_neg (Nat.not_le.mpr h)

/-- With as many coordinates as clusters the loop labels the points that an `unsigned` counts. -/
theorem kmean_iterated (hg : g.Documented) (hpoints : IsMatrix points m k) (hk : 0 < k) (hk32 : k < 2 ^ 32)
    (hkm : k < u32 m) (mem : CentroidsMemory) (rand : Nat → Nat) : ∃ c, kmean g mem rand points m k k = .ok c ∧ c.Shape (u32 m) k ∧
      Consistent points (u32 m) k k c := by
  have hsize : u32 m ≤ m := Nat.mod_le m _
  have hk' : u32 k = k := Nat.mod_eq_of_lt hk32
  obtain ⟨c₁, h₁, hshape⟩ := centroidsInit_ok hg hpoints hsize rand (newCentroids_shape hg mem (u32 m) k) hkm
  obtain ⟨c₂, h₂, hshape₂, hscaled⟩ := forLoop_inv
    (f := fun _ c => do centroidsCenter g points (← centroidsColor g points c)) (n := maxIter)
    (I := fun i c => c.Shape (u32 m) k ∧ (0 < i → Scaled points (u32 m) k k c))
    ⟨hshape, fun h => absurd h (Nat.not_lt_zero 0)⟩ fun i _ c hc => by
      obtain ⟨c', hcolor, hcolored⟩ := centroidsColor_ok hg hpoints hsize hc.1 hk hkm
      obtain ⟨c'', hcenter, hscaled⟩ := centroidsCenter_ok hg hpoints hsize hkm hcolored
      refine ⟨c'', ?_, hscaled.colored.shape, fun _ => hscaled⟩
      simp only [hcolor, bind, Except.bind, hcenter]
  refine ⟨c₂, ?_, hshape₂, (hscaled (by decide)).consistent⟩
  rw [kmean_of_lt hkm, hk', h₁]
  exact h₂

/-- Rows of different sizes end the program. -/
theorem kmean_badLength (hg : g.Documented) (hpoints : IsMatrix points m n) (hk : 0 < k) (hkm : k < u32 m) (hn : n ≠ k)
    (mem : CentroidsMemory) (rand : Nat → Nat) : kmean g mem rand points m n k = .error .badLength := by
  obtain ⟨k, rfl⟩ := Nat.exists_eq_succ_of_ne_zero hk.ne'
  obtain ⟨centroid, -, hcentroid, hlen⟩ := hg.matrixRow_ok (newCentroids_shape hg mem (u32 m) (k + 1)).centroids
    (Nat.zero_lt_of_lt hkm)
  obtain ⟨point, -, hpoint, hlen'⟩ := hg.matrixRow_ok hpoints
    (lt_of_lt_of_le (Nat.mod_lt (rand 0) (Nat.zero_lt_of_lt hkm)) (Nat.mod_le m _))
  have hcopy : g.vectorMemcpy centroid point = .error .badLength :=
    hg.vectorMemcpy_ne fun h => hn (hlen'.symm.trans (h.symm.trans hlen))
  have hinit : centroidsInit g rand points (newCentroids g mem (u32 m) (u32 n) (k + 1)) = .error .badLength := by
    refine forLoop_error ?_
    show (g.matrixRow (newCentroids g mem (u32 m) (k + 1) (k + 1)).centroids 0 >>= fun centroid =>
      g.matrixRow points (rand 0 % u32 m) >>= fun point => g.vectorMemcpy centroid point >>= _) = _
    rw [hcentroid, hpoint]
    show g.vectorMemcpy centroid point >>= _ = _
    rw [hcopy]
    rfl
  rw [kmean_of_lt hkm, hinit]
  rfl

/-- The shortcut writes no label. -/
theorem kmean_shortcut_label (hg : g.Documented) {c : Centroids} {mem : CentroidsMemory} {rand : Nat → Nat}
    (hmk : u32 m ≤ k) (h : kmean g mem rand points m n k = .ok c) : c.label = (List.range (u32 m)).map mem.label := by
  rw [kmean_of_le hmk] at h
  unfold copyPoints at h
  simp only at h
  split_ifs at h
  cases h
  exact hg.ulongAlloc mem.label (u32 m)

/-- **The clustering ends with labels and means exactly when there is no point, or there are fewer clusters than points
and as many as coordinates.** -/
theorem kmean_iff (hg : g.Documented) (hpoints : IsMatrix points m n) (hk : 0 < k) (hk32 : k < 2 ^ 32) :
    (∀ mem rand, ∃ c, kmean g mem rand points m n k = .ok c ∧ Consistent points m n k c) ↔
      m = 0 ∨ m < 2 ^ 32 ∧ n = k ∧ k < m := by
  constructor
  · intro h
    by_cases hzero : m = 0
    · exact .inl hzero
    refine .inr ?_
    obtain ⟨c, hc, hconsistent⟩ := h ⟨fun _ _ => 0, fun _ => k, fun _ => 0⟩ fun _ => 0
    have hkm : k < u32 m := by
      by_contra hle
      obtain ⟨l, hl, hlabel⟩ := hconsistent.labelled 0 (Nat.pos_of_ne_zero hzero)
      rw [kmean_shortcut_label hg (Nat.not_lt.mp hle) hc] at hlabel
      obtain ⟨i, -, rfl⟩ := List.mem_map.mp (List.mem_of_getElem? hlabel)
      exact absurd hl (lt_irrefl k)
    have hn : n = k := by
      by_contra hne
      rw [kmean_badLength hg hpoints hk hkm hne] at hc
      cases hc
    subst hn
    obtain ⟨c', hc', hshape, -⟩ := kmean_iterated hg hpoints hk hk32 hkm ⟨fun _ _ => 0, fun _ => n, fun _ => 0⟩ fun _ => 0
    obtain rfl := Except.ok.inj (hc.symm.trans hc')
    have hm : m ≤ u32 m := hshape.label ▸ hconsistent.le_length
    have hlt : u32 m < 2 ^ 32 := Nat.mod_lt m (by decide)
    exact ⟨lt_of_le_of_lt hm hlt, rfl, lt_of_lt_of_le hkm (Nat.mod_le m _)⟩
  · rintro (rfl | ⟨hm, rfl, hkm⟩) mem rand
    · have hsize : u32 (0 * u32 n) ≤ 0 * k := by
        rw [Nat.zero_mul, Nat.zero_mul]
        exact Nat.le_refl 0
      refine ⟨_, (kmean_of_le (Nat.zero_le k) mem rand).trans (if_pos hsize),
        fun i hi => absurd hi (Nat.not_lt_zero i), fun l _ hne => absurd members_zero hne⟩
    · have hm' : u32 m = m := Nat.mod_eq_of_lt hm
      obtain ⟨c, hc, -, hconsistent⟩ := kmean_iterated hg hpoints hk hk32 (hm'.symm ▸ hkm) mem rand
      rw [hm'] at hconsistent
      exact ⟨c, hc, hconsistent⟩

end Kmean

/-- Two clusters of three points of a plane. -/
theorem kmean_plane : ∃ c,
    kmean exactRows ⟨fun _ _ => 0, fun _ => 0, fun _ => 0⟩ (fun _ => 0) [[0, 0], [0, 1], [5, 5]] 3 2 2 = .ok c ∧
      Consistent [[0, 0], [0, 1], [5, 5]] 3 2 2 c :=
  (kmean_iff exactRows_documented ⟨rfl, by decide⟩ (by decide) (by decide)).mpr (.inr (by decide)) _ _

/-- Two clusters of three points of a line: the first copy has rows of two sizes. -/
theorem kmean_line_fails : ¬ ∀ {points : List (List ℚ)} {m n k : Nat}, IsMatrix points m n → 0 < k → k < 2 ^ 32 →
    ∀ mem rand, ∃ c, kmean exactRows mem rand points m n k = .ok c ∧ Consistent points m n k c := by
  intro hall
  have hmatrix : IsMatrix ([[0], [1], [5]] : List (List ℚ)) 3 1 := ⟨rfl, by decide⟩
  obtain ⟨c, hc, -⟩ := hall hmatrix (k := 2) (by decide) (by decide) ⟨fun _ _ => 0, fun _ => 0, fun _ => 0⟩ fun _ => 0
  rw [kmean_badLength exactRows_documented hmatrix (by decide) (by decide) (by decide)] at hc
  cases hc

end Hmon
