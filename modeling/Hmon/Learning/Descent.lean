import Hmon.Learning.Kmean
import Hmon.Lib.Lloyd

/-!
# The rounds of the clustering (`kmean` in `kmean.c`)

* `kmeanRounds` : the loop of `kmean` with any number of rounds;
* `Centroids.cost` : the squared distances of the points to their centroids, summed;
* `centroidsColor_cost`, `centroidsCenter_cost` : neither half of a round raises it, once it is below `DBL_MAX`;
* `kmean_descends` : **no round raises it after the first**.
-/

namespace Hmon
open Lib

/-- The iterated case of `kmean`, with any number of rounds instead of `MAX_ITER`. -/
def kmeanRounds (g : GslRows) (mem : CentroidsMemory) (rand : Nat → Nat) (points : List (List ℚ))
    (size1 size2 nCentroids rounds : Nat) : Except GslError Centroids := do
  let c ← centroidsInit g rand points (newCentroids g mem (u32 size1) (u32 size2) nCentroids)
  forLoop (fun _ c => do centroidsCenter g points (← centroidsColor g points c)) rounds c

/-- The coordinates of the rows of a matrix. -/
def coords (a : List (List ℚ)) (i t : Nat) : ℚ := (a.getD i []).getD t 0

/-- The squared distances of the points to their centroids. -/
def Centroids.cost (points : List (List ℚ)) (c : Centroids) : ℚ :=
  clusterCost (Finset.range c.m) (Finset.range c.n) (coords points) (fun i => c.label.getD i 0) (coords c.centroids)

/-! ## Distances -/

/-- The distance of point `i` to centroid `j`. -/
def Centroids.distance (points : List (List ℚ)) (c : Centroids) (i j : Nat) : ℚ :=
  sqDist (Finset.range c.n) (coords points i) (coords c.centroids j)

section Rounds
variable {g : GslRows} (hg : g.Documented) {points : List (List ℚ)} {size1 m k : Nat} {c : Centroids}

theorem coords_row {a : List (List ℚ)} {i : Nat} {row : List ℚ} (h : a[i]? = some row) (t : Nat) :
    coords a i t = row.getD t 0 := by
  unfold coords
  rw [List.getD_eq_getElem?_getD (l := a), h, Option.getD_some]

section Documented
include hg

/-- The loop over the centroids finds a distance that is not above any other, if one is below `DBL_MAX`. -/
theorem nearest_le (hc : c.Shape m k) (hkm : k < m) {i : Nat} {point : List ℚ} (hpoint : points[i]? = some point)
    (hlen : point.length = k) {colorAssign : Nat} (h : colorAssign < k) : ∃ s, nearest g c point colorAssign = .ok s ∧
      s.2 < k ∧ ∀ j < k, c.distance points i j < Double.dblMax → c.distance points i s.2 ≤ c.distance points i j := by
  have hloop : ∃ s, nearest g c point colorAssign = .ok s ∧ (s.2 < k ∧ s.1 ≤ Double.dblMax ∧
      (s.1 = Double.dblMax ∨ s.1 = c.distance points i s.2) ∧ ∀ j < k, s.1 ≤ c.distance points i j) := by
    unfold nearest
    rw [hc.sizeK]
    refine forLoop_inv (I := fun n (s : ℚ × Nat) => s.2 < k ∧ s.1 ≤ Double.dblMax ∧
      (s.1 = Double.dblMax ∨ s.1 = c.distance points i s.2) ∧ ∀ j < n, s.1 ≤ c.distance points i j)
      ⟨h, le_rfl, Or.inl rfl, fun j hj => absurd hj (Nat.not_lt_zero j)⟩ fun j hj s hs => ?_
    obtain ⟨hlt, hmax, hself, hle⟩ := hs
    obtain ⟨centroid, hget, hcentroid, hlen'⟩ := hg.matrixRow_ok hc.centroids (hj.trans hkm)
    have hdiff : g.vectorMemcpy (g.vectorCalloc c.n) point = .ok point := by
      rw [hg.vectorCalloc, hg.vectorMemcpy (by rw [List.length_replicate, hc.sizeN, hlen])]
    have hsub : g.vectorSub point centroid = .ok (combine 1 point (-1) centroid) :=
      hg.vectorSub (hlen.trans hlen'.symm)
    have hdot : g.blasDdot (combine 1 point (-1) centroid) (combine 1 point (-1) centroid) =
        .ok (c.distance points i j) := by
      rw [hg.blasDdot rfl, dot_sub_self hlen hlen', Centroids.distance, hc.sizeN]
      simp only [sqDist, coords_row hpoint, coords_row hget]
    refine ⟨if c.distance points i j < s.1 then (c.distance points i j, j) else s, ?_, ?_⟩
    · simp only [hcentroid, hdiff, hsub, hdot, bind, Except.bind]
    · split_ifs with hcloser
      · refine ⟨hj, hcloser.le.trans hmax, Or.inr rfl, fun j' hj' => ?_⟩
        rcases Nat.lt_succ_iff_lt_or_eq.mp hj' with hlt' | rfl
        · exact hcloser.le.trans (hle j' hlt')
        · exact le_rfl
      · refine ⟨hlt, hmax, hself, fun j' hj' => ?_⟩
        rcases Nat.lt_succ_iff_lt_or_eq.mp hj' with hlt' | rfl
        · exact hle j' hlt'
        · exact not_lt.mp hcloser
  obtain ⟨s, hs, hlt, -, hself, hle⟩ := hloop
  refine ⟨s, hs, hlt, fun j hj hfinite => ?_⟩
  rcases hself with hself | hself
  · exact absurd (hle j hj) (not_le.mpr (hself ▸ hfinite))
  · exact hself ▸ hle j hj

theorem ulongSet_eq {v v' : List Nat} {i x : Nat} (h : g.ulongSet v i x = .ok v') : v' = v.set i x := by
  by_cases hi : i < v.length
  · rw [hg.ulongSet x hi] at h
    exact (Except.ok.inj h).symm
  · rw [hg.ulongSet_out x (Nat.not_lt.mp hi)] at h
    cases h

/-- One point changes its own label and a count, and hands its label to the next point. -/
theorem colorPoint_frame {i : Nat} {point : List ℚ} (hpoint : g.matrixRow points i = .ok point)
    {s s' : Centroids × Nat} {x : ℚ × Nat} (hx : nearest g s.1 point s.2 = .ok x)
    (h : colorPoint g points i s = .ok s') :
    ∃ count, s' = ({ s.1 with label := s.1.label.set i x.2, nlab := s.1.nlab.set x.2 count }, x.2) := by
  obtain ⟨point', hpoint', h⟩ := bind_eq_ok.mp h
  cases Except.ok.inj (hpoint.symm.trans hpoint')
  obtain ⟨x', hx', h⟩ := bind_eq_ok.mp h
  cases Except.ok.inj (hx.symm.trans hx')
  obtain ⟨label, hlabel, h⟩ := bind_eq_ok.mp h
  obtain ⟨count, -, h⟩ := bind_eq_ok.mp h
  obtain ⟨nlab, hnlab, h⟩ := bind_eq_ok.mp h
  cases h
  rw [ulongSet_eq hg hlabel, ulongSet_eq hg hnlab]
  exact ⟨1 + count, rfl⟩

end Documented

/-! ## One round -/

/-- The first `i` points have no centroid at a finite distance that is nearer than their own. -/
structure Nearest (points : List (List ℚ)) (m k i : Nat) (c₀ c : Centroids) : Prop where
  shape : c.Shape m k
  centroids : c.centroids = c₀.centroids
  nearest : ∀ i' < i, ∀ j < k, c₀.distance points i' j < Double.dblMax →
    c₀.distance points i' (c.label.getD i' 0) ≤ c₀.distance points i' j

theorem Nearest.distance {i : Nat} {c₀ : Centroids} (h : Nearest points m k i c₀ c) (hc : c₀.Shape m k) :
    c.distance points = c₀.distance points := by
  funext i j
  rw [Centroids.distance, Centroids.distance, h.centroids, h.shape.sizeN, hc.sizeN]

variable (hpoints : IsMatrix points size1 k) (hsize : m ≤ size1)
include hg hpoints hsize

/-- The first loop of a round. -/
theorem centroidsColor_nearest (hc : c.Shape m k) (hk : 0 < k) (hkm : k < m) :
    ∃ c', centroidsColor g points c = .ok c' ∧ Colored points m k m c' ∧ Nearest points m k m c c' := by
  obtain ⟨c', hcolor, hcolored⟩ := centroidsColor_ok hg hpoints hsize hc hk hkm
  refine ⟨c', hcolor, hcolored, ?_⟩
  obtain ⟨⟨_, color⟩, hloop, hlast⟩ := bind_eq_ok.mp hcolor
  cases hlast
  have hkept : Nearest points m k c.m c c' ∧ color < k := ?_
  · rw [hc.sizeM] at hkept
    exact hkept.1
  refine forLoop_keeps (I := fun i s => Nearest points m k i c s.1 ∧ s.2 < k) ⟨⟨⟨hc.sizeM, hc.sizeN, hc.sizeK,
    hc.centroids, hc.label, (hg.length_ulongSetZero _).trans hc.nlab⟩, rfl, fun i hi => absurd hi (Nat.not_lt_zero i)⟩, hk⟩
    (fun i hi s s' hs hstep => ?_) hloop
  have hi : i < m := hc.sizeM ▸ hi
  obtain ⟨point, hget, hrow, hlen⟩ := hg.matrixRow_ok hpoints (lt_of_lt_of_le hi hsize)
  obtain ⟨x, hx, hlt, hle⟩ := nearest_le hg hs.1.shape hkm hget hlen hs.2
  obtain ⟨count, rfl⟩ := colorPoint_frame hg hrow hx hstep
  have hlabel : i < s.1.label.length := hs.1.shape.label ▸ hi
  refine ⟨⟨⟨hs.1.shape.sizeM, hs.1.shape.sizeN, hs.1.shape.sizeK, hs.1.shape.centroids,
    List.length_set.trans hs.1.shape.label, List.length_set.trans hs.1.shape.nlab⟩, hs.1.centroids,
    fun i' hi' j hj hfinite => ?_⟩, hlt⟩
  show c.distance points i' ((s.1.label.set i x.2).getD i' 0) ≤ _
  rcases Nat.lt_succ_iff_lt_or_eq.mp hi' with hlt' | rfl
  · rw [List.getD_eq_getElem?_getD, List.getElem?_set_ne (by omega), ← List.getD_eq_getElem?_getD]
    exact hs.1.nearest i' hlt' j hj hfinite
  · rw [List.getD_eq_getElem?_getD, List.getElem?_set_self hlabel, Option.getD_some]
    rw [hs.1.distance hc] at hle
    exact hle j hj hfinite

omit hg hpoints hsize in
/-- **New labels do not cost more.** -/
theorem Nearest.cost_le {c' : Centroids} (h : Nearest points m k m c c') (hc : c.Shape m k)
    (hlabel : ∀ i < m, c.label.getD i 0 < k) (hfinite : c.cost points < Double.dblMax) :
    c'.cost points ≤ c.cost points := by
  unfold Centroids.cost at *
  rw [h.shape.sizeM, h.shape.sizeN, h.centroids]
  rw [hc.sizeM, hc.sizeN] at *
  refine clusterCost_label_le fun i hi => ?_
  have hi := Finset.mem_range.mp hi
  have hown : c.distance points i (c.label.getD i 0) < Double.dblMax := by
    refine lt_of_le_of_lt ?_ hfinite
    unfold Centroids.distance
    rw [hc.sizeN]
    exact Finset.single_le_sum (fun i _ => sqDist_nonneg (coords points i) (coords c.centroids (c.label.getD i 0)))
      (Finset.mem_range.mpr hi)
  have hle := h.nearest i hi _ (hlabel i hi) hown
  unfold Centroids.distance at hle
  rw [hc.sizeN] at hle
  exact hle

omit hg hpoints hsize in
theorem addPoint_frame {i : Nat} {c' : Centroids} (h : addPoint g points i c = .ok c') :
    ∃ a, c' = { c with centroids := a } := by
  obtain ⟨label, -, h⟩ := bind_eq_ok.mp h
  obtain ⟨centroid, -, h⟩ := bind_eq_ok.mp h
  obtain ⟨point, -, h⟩ := bind_eq_ok.mp h
  obtain ⟨centroid', -, h⟩ := bind_eq_ok.mp h
  exact ⟨_, (Except.ok.inj h).symm⟩

omit hg hpoints hsize in
theorem scaleCentroid_frame {i : Nat} {c' : Centroids} (h : scaleCentroid g i c = .ok c') :
    ∃ a, c' = { c with centroids := a } := by
  obtain ⟨nlab, -, h⟩ := bind_eq_ok.mp h
  obtain ⟨centroid, -, h⟩ := bind_eq_ok.mp h
  split_ifs at h
  · exact ⟨_, (Except.ok.inj h).symm⟩
  · exact ⟨c.centroids, (Except.ok.inj h).symm⟩

omit hg hpoints hsize in
/-- The second half of a round writes centroids only. -/
theorem centroidsCenter_frame {c' : Centroids} (h : centroidsCenter g points c = .ok c') :
    ∃ a, c' = { c with centroids := a } := by
  obtain ⟨c₁, h₁, h₂⟩ := bind_eq_ok.mp h
  have hsums : ∃ a, c₁ = { c with centroids := a } := by
    refine forLoop_keeps (I := fun _ c₁ => ∃ a, c₁ = { c with centroids := a }) ⟨_, rfl⟩ ?_ h₁
    rintro i - _ s' ⟨a, rfl⟩ hs
    obtain ⟨b, rfl⟩ := addPoint_frame hs
    exact ⟨b, rfl⟩
  refine forLoop_keeps (I := fun _ c' => ∃ a, c' = { c with centroids := a }) hsums ?_ h₂
  rintro i - _ s' ⟨a, rfl⟩ hs
  obtain ⟨b, rfl⟩ := scaleCentroid_frame hs
  exact ⟨b, rfl⟩

omit hg hpoints hsize in
/-- A centroid with points is their mean, coordinate by coordinate. -/
theorem Scaled.means_coords (h : Scaled points m k k c) :
    Means (Finset.range m) (Finset.range k) (coords points) (fun i => c.label.getD i 0) (coords c.centroids) := by
  intro i hi t ht
  obtain ⟨l, hl, hlabel⟩ := h.colored.labelled i (Finset.mem_range.mp hi)
  have hgetD {j l' : Nat} (hj : c.label[j]? = some l') : c.label.getD j 0 = l' := by
    rw [List.getD_eq_getElem?_getD, hj, Option.getD_some]
  have hfilter : ((List.range m).filter fun j => c.label[j]? = some l) =
      (List.range m).filter fun j => c.label.getD j 0 = l := by
    refine List.filter_congr fun j hj => decide_eq_decide.mpr ?_
    obtain ⟨l', -, hl'⟩ := h.colored.labelled j (List.mem_range.mp hj)
    rw [hgetD hl', hl', Option.some.injEq]
  have hcolumn : column (members points c.label m l) t =
      ((List.range m).filter fun j => c.label.getD j 0 = l).map fun j => coords points j t := by
    rw [column, members, hfilter, List.map_map]
    rfl
  have hmem : i ∈ (List.range m).filter fun j => c.label[j]? = some l :=
    List.mem_filter.mpr ⟨List.mem_range.mpr (Finset.mem_range.mp hi), decide_eq_true hlabel⟩
  have hcentroid := h.means l hl (List.ne_nil_of_mem (List.mem_map_of_mem hmem))
  have hlen : (((List.range m).filter fun j => c.label.getD j 0 = l).length : ℚ) ≠ 0 :=
    Nat.cast_ne_zero.mpr (List.length_pos_of_mem (hfilter ▸ hmem)).ne'
  show coords c.centroids (c.label.getD i 0) t *
      ((Finset.range m).filter fun j => c.label.getD j 0 = c.label.getD i 0).card =
    ∑ j ∈ Finset.range m with c.label.getD j 0 = c.label.getD i 0, coords points j t
  rw [hgetD hlabel, coords_row hcentroid, ← sum_filter_range, ← length_filter_range, List.getD_eq_getElem?_getD,
    meanVec, List.getElem?_map, List.getElem?_range (Finset.mem_range.mp ht), Option.map_some, Option.getD_some,
    hcolumn, mean, List.length_map, div_mul_cancel₀ _ hlen]

omit hg hpoints hsize in
/-- **New centroids do not cost more.** -/
theorem Scaled.cost_le {c' : Centroids} (h : Scaled points m k k c') (hc : c.Shape m k)
    (hframe : ∃ a, c' = { c with centroids := a }) : c'.cost points ≤ c.cost points := by
  obtain ⟨a, rfl⟩ := hframe
  have hmeans := h.means_coords
  unfold Centroids.cost
  rw [hc.sizeM, hc.sizeN]
  exact clusterCost_center_le hmeans

/-- A round from any centroids. -/
theorem round_ok (hc : c.Shape m k) (hk : 0 < k) (hkm : k < m) :
    ∃ c₁ c₂, (do centroidsCenter g points (← centroidsColor g points c)) = .ok c₂ ∧ Nearest points m k m c c₁ ∧
      Scaled points m k k c₂ ∧ c₂.cost points ≤ c₁.cost points := by
  obtain ⟨c₁, hcolor, hcolored, hnearest⟩ := centroidsColor_nearest hg hpoints hsize hc hk hkm
  obtain ⟨c₂, hcenter, hscaled⟩ := centroidsCenter_ok hg hpoints hsize hkm hcolored
  refine ⟨c₁, c₂, ?_, hnearest, hscaled, hscaled.cost_le hcolored.shape (centroidsCenter_frame hcenter)⟩
  rw [hcolor]
  exact hcenter

/-- The rounds behind the first. -/
theorem round_descends (hc : Scaled points m k k c) (hk : 0 < k) (hkm : k < m) (hfinite : c.cost points < Double.dblMax) :
    ∃ c', (do centroidsCenter g points (← centroidsColor g points c)) = .ok c' ∧ Scaled points m k k c' ∧
      c'.cost points ≤ c.cost points := by
  obtain ⟨c₁, c₂, hround, hnearest, hscaled, hle⟩ := round_ok hg hpoints hsize hc.colored.shape hk hkm
  refine ⟨c₂, hround, hscaled, hle.trans (hnearest.cost_le hc.colored.shape (fun i hi => ?_) hfinite)⟩
  obtain ⟨l, hl, hlabel⟩ := hc.colored.labelled i hi
  rw [List.getD_eq_getElem?_getD, hlabel]
  exact hl

/-- What a round leaves costs little beside `DBL_MAX`, if the coordinates are not too large. -/
theorem Scaled.cost_finite (hc : Scaled points m k k c) {b : ℚ} (hb : ∀ p ∈ points, ∀ x ∈ p, |x| ≤ b) :
    c.cost points ≤ m * (k * (2 * b) ^ 2) := by
  have hcoords : ∀ i ∈ Finset.range m, ∀ t ∈ Finset.range k, |coords points i t| ≤ b := by
    intro i hi t ht
    obtain ⟨point, hget, -, hlen⟩ := hg.matrixRow_ok hpoints (lt_of_lt_of_le (Finset.mem_range.mp hi) hsize)
    have ht : t < point.length := hlen ▸ Finset.mem_range.mp ht
    rw [coords_row hget, List.getD_eq_getElem _ _ ht]
    exact hb point (List.mem_of_getElem? hget) _ (List.getElem_mem ht)
  have hcost := hc.means_coords.cost_le hcoords
  rw [Finset.card_range, Finset.card_range] at hcost
  unfold Centroids.cost
  rw [hc.colored.shape.sizeM, hc.colored.shape.sizeN]
  exact hcost

end Rounds

/-! ## All rounds -/

section Run
variable {g : GslRows} (hg : g.Documented) {points : List (List ℚ)} {m k : Nat} (hpoints : IsMatrix points m k)
  (hk : 0 < k) (hk32 : k < 2 ^ 32) (hkm : k < u32 m) {b : ℚ} (hb : ∀ p ∈ points, ∀ x ∈ p, |x| ≤ b) (hfinite : m * (k * (2 * b) ^ 2) < Double.dblMax)
include hg hpoints hk hk32 hkm hb hfinite

/-- **No round of the clustering raises the sum of the squared distances after the first**, so that what `kmean` returns
costs no more than any earlier round. -/
theorem kmean_descends (mem : CentroidsMemory) (rand : Nat → Nat) : ∃ c : Nat → Centroids,
    kmean g mem rand points m k k = .ok (c maxIter) ∧ (∀ i, kmeanRounds g mem rand points m k k i = .ok (c i)) ∧
      ∀ i j, 0 < i → i ≤ j → (c j).cost points ≤ (c i).cost points := by
  have hsize : u32 m ≤ m := Nat.mod_le m _
  obtain ⟨c₀, hinit, hshape⟩ := centroidsInit_ok hg hpoints hsize rand (newCentroids_shape hg mem (u32 m) k) hkm
  have hrounds (i : Nat) : kmeanRounds g mem rand points m k k i =
      forLoop (fun _ c => do centroidsCenter g points (← centroidsColor g points c)) i c₀ := by
    rw [kmeanRounds, show u32 k = k from Nat.mod_eq_of_lt hk32, hinit]
    rfl
  have hlow {c : Centroids} (hc : Scaled points (u32 m) k k c) : c.cost points < Double.dblMax := by
    refine lt_of_le_of_lt ((hc.cost_finite hg hpoints hsize hb).trans ?_) hfinite
    exact mul_le_mul_of_nonneg_right (Nat.cast_le.mpr hsize) (by positivity)
  have hall (i : Nat) : ∃ c, kmeanRounds g mem rand points m k k i = .ok c ∧ c.Shape (u32 m) k ∧
      (0 < i → Scaled points (u32 m) k k c) := by
    induction i with
    | zero => exact ⟨c₀, hrounds 0, hshape, fun h => absurd h (lt_irrefl 0)⟩
    | succ i ih =>
      obtain ⟨c, hc, hshape, -⟩ := ih
      obtain ⟨-, c', hround, -, hscaled, -⟩ := round_ok hg hpoints hsize hshape hk hkm
      refine ⟨c', ?_, hscaled.colored.shape, fun _ => hscaled⟩
      rw [hrounds, forLoop, ← hrounds, hc]
      exact hround
  choose c hc _ hscaled using hall
  have hkmean : kmean g mem rand points m k k = kmeanRounds g mem rand points m k k maxIter := kmean_of_lt hkm mem rand
  refine ⟨c, hkmean.trans (hc maxIter), hc, fun i j hi hij => ?_⟩
  induction j, hij using Nat.le_induction with
  | base => exact le_rfl
  | succ j hij ih =>
    have hj : 0 < j := hi.trans_le hij
    obtain ⟨c', hround, -, hle⟩ := round_descends hg hpoints hsize (hscaled j hj) hk hkm (hlow (hscaled j hj))
    have hnext : c (j + 1) = c' := by
      have hj' := hc (j + 1)
      rw [hrounds, forLoop, ← hrounds, hc] at hj'
      exact Except.ok.inj (hj'.symm.trans hround)
    exact hnext ▸ hle.trans ih

end Run

/-- Two clusters of three points of a plane. -/
theorem kmean_descends_plane : ∃ c : Nat → Centroids,
    kmean exactRows ⟨fun _ _ => 0, fun _ => 0, fun _ => 0⟩ (fun _ => 0) [[0, 0], [0, 1], [5, 5]] 3 2 2 = .ok (c maxIter) ∧
      (∀ i, kmeanRounds exactRows ⟨fun _ _ => 0, fun _ => 0, fun _ => 0⟩ (fun _ => 0) [[0, 0], [0, 1], [5, 5]] 3 2 2 i =
        .ok (c i)) ∧
      ∀ i j, 0 < i → i ≤ j →
        (c j).cost [[0, 0], [0, 1], [5, 5]] ≤ (c i).cost [[0, 0], [0, 1], [5, 5]] :=
  kmean_descends (b := 5) exactRows_documented ⟨rfl, by decide⟩ (by decide) (by decide) (by decide) (by decide +kernel)
    (by decide +kernel) _ _

end Hmon
