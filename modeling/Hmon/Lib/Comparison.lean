import Mathlib.Data.List.InsertIdx
import Mathlib.Data.List.Pairwise
import Mathlib.Data.Int.Order.Basic
import Mathlib.Data.Nat.Basic
import Mathlib.Order.Basic

/-!
# Three-way comparisons

* `Comparison compare` : a comparison of a total preorder, as `qsort` and `bsearch` ask for; `Comparison.first` : a
  further criterion that decides before it;
* `Sorted compare xs` : no element is above a later one;
* `signs compare e xs` : how `e` compares with the elements of `xs`; `Sorted.falling` : positive, then zero, then
  negative;
* `sorted_insertIdx_iff` : **an element can be inserted exactly behind no greater and before no smaller one**.
-/

namespace Hmon.Lib

variable {α : Type}

/-- A comparison of a total preorder. -/
structure Comparison (compare : α → α → Int) : Prop where
  swap : ∀ x y, 0 < compare x y ↔ compare y x < 0
  trans : ∀ x y z, compare x y ≤ 0 → compare y z ≤ 0 → compare x z ≤ 0

abbrev Sorted (compare : α → α → Int) (xs : List α) : Prop := xs.Pairwise fun x y => compare x y ≤ 0

/-- The signs of a key along a sequence of length `n` are positive, then zero, then negative. -/
structure Falling (n : Nat) (p : Nat → Int) : Prop where
  neg : ∀ i j, i ≤ j → j < n → p i < 0 → p j < 0
  pos : ∀ i j, i ≤ j → j < n → 0 < p j → 0 < p i

/-- The comparison of a key with the element at an index. -/
def signs (compare : α → α → Int) (e : α) (xs : List α) (i : Nat) : Int := (xs[i]?).elim 0 (compare e)

variable {compare : α → α → Int} {e x y z : α} {xs : List α}

namespace Comparison

theorem le_swap (hc : Comparison compare) : compare x y ≤ 0 ↔ 0 ≤ compare y x := by
  have := hc.swap x y
  omega

theorem sign_swap (hc : Comparison compare) (x y : α) : (compare y x).sign = -(compare x y).sign := by
  have hxy := hc.swap x y
  have hyx := hc.swap y x
  rcases lt_trichotomy (compare x y) 0 with h | h | h
  · rw [Int.sign_eq_neg_one_of_neg h, Int.sign_eq_one_of_pos (hyx.mpr h)]
    rfl
  · rw [h, show compare y x = 0 by omega]
    rfl
  · rw [Int.sign_eq_one_of_pos h, Int.sign_eq_neg_one_of_neg (hxy.mp h)]

theorem refl (hc : Comparison compare) (x : α) : compare x x = 0 := by
  have := hc.swap x x
  omega

theorem lt_of_lt_of_le (hc : Comparison compare) (hxy : compare x y < 0) (hyz : compare y z ≤ 0) : compare x z < 0 := by
  by_contra hxz
  have hzx : compare z x ≤ 0 := hc.le_swap.mpr (not_lt.mp hxz)
  have hyx : compare y x ≤ 0 := hc.trans y z x hyz hzx
  have := hc.le_swap.mp hyx
  omega

theorem lt_of_le_of_lt (hc : Comparison compare) (hxy : compare x y ≤ 0) (hyz : compare y z < 0) : compare x z < 0 := by
  by_contra hxz
  have hzx : compare z x ≤ 0 := hc.le_swap.mpr (not_lt.mp hxz)
  have hzy : compare z y ≤ 0 := hc.trans z x y hzx hxy
  have := hc.le_swap.mp hzy
  omega

/-- Tied elements compare alike. -/
theorem tie_trans (hc : Comparison compare) (hxy : compare x y = 0) (hyz : compare y z = 0) : compare x z = 0 := by
  have hle : compare x z ≤ 0 := hc.trans x y z hxy.le hyz.le
  have hge : compare z x ≤ 0 := hc.trans z y x (hc.le_swap.mpr hyz.ge) (hc.le_swap.mpr hxy.ge)
  have := hc.le_swap.mp hge
  omega

theorem tie_symm (hc : Comparison compare) (hxy : compare x y = 0) : compare y x = 0 :=
  le_antisymm (hc.le_swap.mpr hxy.ge) (hc.le_swap.mp hxy.le)

/-- A criterion that decides before the comparison. It is asymmetric, and of two elements that it separates it separates
every third from one. -/
theorem first (lt : α → α → Prop) [∀ x y, Decidable (lt x y)] (hasymm : ∀ x y, lt x y → ¬ lt y x)
    (hsplit : ∀ x y z, lt x z → lt x y ∨ lt y z) (hc : Comparison compare) :
    Comparison fun x y => if lt x y then -1 else if lt y x then 1 else compare x y := by
  have hle (x y : α) : (if lt x y then -1 else if lt y x then 1 else compare x y) ≤ 0 ↔
      lt x y ∨ ¬ lt y x ∧ compare x y ≤ 0 := by
    split_ifs <;> simp [*]
  refine ⟨fun x y => ?_, fun x y z hxy hyz => ?_⟩
  · have hxy := hasymm x y
    have hs := hc.swap x y
    split_ifs with h₁ h₂ <;> simp_all
  · rw [hle] at hxy hyz ⊢
    rcases hxy with hxy | ⟨hyx, hxy⟩
    · refine .inl ((hsplit x z y hxy).resolve_right fun hzy => ?_)
      rcases hyz with hyz | ⟨hno, -⟩
      · exact hasymm y z hyz hzy
      · exact hno hzy
    · rcases hyz with hyz | ⟨hzy, hyz⟩
      · exact .inl ((hsplit y x z hyz).resolve_left hyx)
      · exact .inr ⟨fun hzx => (hsplit z y x hzx).elim hzy hyx, hc.trans x y z hxy hyz⟩

theorem on {β : Type} (hc : Comparison compare) (f : β → α) : Comparison fun x y => compare (f x) (f y) :=
  ⟨fun x y => hc.swap (f x) (f y), fun x y z => hc.trans (f x) (f y) (f z)⟩

end Comparison

theorem comparison_sub : Comparison fun x y : Int => x - y where
  swap x y := by omega
  trans x y z hxy hyz := by omega

theorem signs_of_lt {i : Nat} (h : i < xs.length) : signs compare e xs i = compare e xs[i] := by
  unfold signs
  rw [List.getElem?_eq_getElem h]
  rfl

theorem Sorted.le (hs : Sorted compare xs) (hc : Comparison compare) {i j : Nat} (hij : i ≤ j) (hj : j < xs.length) :
    compare xs[i] xs[j] ≤ 0 := by
  obtain rfl | hlt := Nat.eq_or_lt_of_le hij
  · exact (hc.refl _).le
  · exact List.pairwise_iff_getElem.mp hs i j (hlt.trans hj) hj hlt

theorem Sorted.falling (hs : Sorted compare xs) (hc : Comparison compare) (e : α) :
    Falling xs.length (signs compare e xs) where
  neg i j hij hj hi := by
    rw [signs_of_lt (hij.trans_lt hj)] at hi
    rw [signs_of_lt hj]
    exact hc.lt_of_lt_of_le hi (hs.le hc hij hj)
  pos i j hij hj hpos := by
    rw [signs_of_lt hj] at hpos
    rw [signs_of_lt (hij.trans_lt hj)]
    exact (hc.swap _ _).mpr (hc.lt_of_le_of_lt (hs.le hc hij hj) ((hc.swap _ _).mp hpos))

/-- The gap before index `g`: nothing greater before it, nothing smaller behind it. -/
def Gap (n : Nat) (p : Nat → Int) (g : Nat) : Prop := (0 < g → 0 ≤ p (g - 1)) ∧ (g < n → p g ≤ 0)

theorem Falling.before {n g i : Nat} {p : Nat → Int} (hp : Falling n p) (hg : g ≤ n) (h : 0 ≤ p (g - 1)) (hi : i < g) :
    0 ≤ p i := by
  by_contra hneg
  have := hp.neg i (g - 1) (by omega) (by omega) (not_le.mp hneg)
  omega

theorem Falling.behind {n g i : Nat} {p : Nat → Int} (hp : Falling n p) (h : p g ≤ 0) (hgi : g ≤ i) (hi : i < n) :
    p i ≤ 0 := by
  by_contra hpos
  have := hp.pos g i hgi hi (not_le.mp hpos)
  omega

theorem insertIdx_split {g : Nat} (h : g ≤ xs.length) : xs.insertIdx g e = xs.take g ++ e :: xs.drop g := by
  induction xs generalizing g with
  | nil =>
    obtain rfl : g = 0 := Nat.le_zero.mp h
    rfl
  | cons x xs ih =>
    cases g with
    | zero => rfl
    | succ g =>
      rw [List.insertIdx_succ_cons, ih (Nat.le_of_succ_le_succ h)]
      rfl

/-- **An element can be inserted exactly where nothing greater stands before it and nothing smaller behind it.** -/
theorem sorted_insertIdx_iff (hc : Comparison compare) (hs : Sorted compare xs) {g : Nat} (hg : g ≤ xs.length) :
    Sorted compare (xs.insertIdx g e) ↔ Gap xs.length (signs compare e xs) g := by
  have hsplit : xs.insertIdx g e = xs.take g ++ e :: xs.drop g := insertIdx_split hg
  have hfall := hs.falling hc e
  rw [hsplit]
  constructor
  · intro h
    obtain ⟨-, hdrop, htake⟩ := List.pairwise_append.mp h
    constructor
    · intro h0
      have hlt : g - 1 < xs.length := by omega
      rw [signs_of_lt hlt]
      refine hc.le_swap.mp (htake _ ?_ e List.mem_cons_self)
      exact List.mem_take_iff_getElem.mpr ⟨g - 1, by omega, rfl⟩
    · intro hlt
      rw [signs_of_lt hlt]
      refine (List.pairwise_cons.mp hdrop).1 _ ?_
      exact List.mem_drop_iff_getElem.mpr ⟨0, by omega, by simp⟩
  · rintro ⟨hbefore, hbehind⟩
    have htake : ∀ x ∈ xs.take g, compare x e ≤ 0 := by
      intro x hx
      obtain ⟨i, hi, rfl⟩ := List.mem_take_iff_getElem.mp hx
      have hsign := hfall.before hg (hbefore (by omega)) (show i < g by omega)
      rw [signs_of_lt (by omega)] at hsign
      exact hc.le_swap.mpr hsign
    have hdrop : ∀ x ∈ xs.drop g, compare e x ≤ 0 := by
      intro x hx
      obtain ⟨i, hi, rfl⟩ := List.mem_drop_iff_getElem.mp hx
      have hsign := hfall.behind (hbehind (by omega)) (Nat.le_add_right g i) (by omega)
      rwa [signs_of_lt (by omega)] at hsign
    refine List.pairwise_append.mpr ⟨hs.sublist (List.take_sublist g xs), ?_, fun x hx y hy => ?_⟩
    · exact List.pairwise_cons.mpr ⟨hdrop, hs.sublist (List.drop_sublist g xs)⟩
    · rcases List.mem_cons.mp hy with rfl | hy
      · exact htake x hx
      · exact hc.trans x e y (htake x hx) (hdrop y hy)

end Hmon.Lib
