import Hmon.Harray.Refines
import Hmon.Lib.Comparison

/-!
# Sorted insertions (`harray_insert_sorted`)

* `Skipped l r g` : the bisection between `l` and `r` never answers the gap `g`;
* `bisect_gap` : where the bisection answers, by induction over its intervals;
* `Findable`, `Grows` : the element does not fall in a skipped gap, and there is room for it;
* `keepsSorted_iff` : **an insertion keeps the array sorted exactly when the element is findable and there is room**.
-/

namespace Hmon
open Lib Harray

variable {α : Type}

/-! ## The gaps that the bisection skips -/

/-- The gap `g` between two cells from `l` to `r` is never the answer: an interval of three cells ends with its upper
gap. -/
inductive Skipped : Nat → Nat → Nat → Prop
  | last (l : Nat) : Skipped l (l + 2) (l + 1)
  | left {l r g : Nat} (h : 3 ≤ r - l) (lower : Skipped l (1 + l + (r - l) / 2) g) : Skipped l r g
  | right {l r g : Nat} (h : 3 ≤ r - l) (upper : Skipped (1 + l + (r - l) / 2) r g) : Skipped l r g

theorem Skipped.bounds {l r g : Nat} (h : Skipped l r g) : l < g ∧ g < r := by
  induction h with
  | last l => omega
  | left h _ ih => omega
  | right h _ ih => omega

/-- An interval of two cells skips nothing, one of three cells its lower gap. -/
theorem not_skipped_two {l g : Nat} : ¬ Skipped l (l + 1) g := fun h => by
  have := h.bounds
  omega

theorem skipped_three {l g : Nat} : Skipped l (l + 2) g ↔ g = l + 1 := by
  refine ⟨fun h => ?_, fun h => h ▸ .last l⟩
  have := h.bounds
  omega

theorem skipped_split {l r g : Nat} (h : 3 ≤ r - l) :
    Skipped l r g ↔ Skipped l (1 + l + (r - l) / 2) g ∨ Skipped (1 + l + (r - l) / 2) r g := by
  constructor
  · rintro (_ | ⟨_, hl⟩ | ⟨_, hr⟩)
    · omega
    · exact .inl hl
    · exact .inr hr
  · rintro (hl | hr)
    · exact .left h hl
    · exact .right h hr

/-- The element whose signs are `p` falls in the gap `g`, or before gap 1. -/
def FallsIn (p : Nat → Int) (g : Nat) : Prop := (g = 1 ∨ 0 < p (g - 1)) ∧ p g < 0

/-! ## The answer of the bisection -/

/-- The first `n` cells compare with `e` as `p` says. -/
def Against (compare : α → α → Int) (e : α) (n : Nat) (p : Nat → Int) (cell : List (Option α)) : Prop :=
  ∀ i < n, ∃ x, deref cell i = .ok x ∧ compare e x = p i

section Bisect
variable {compare : α → α → Int} {e : α} {n : Nat} {p : Nat → Int} {cell : List (Option α)}

/-- One round of the bisection. -/
theorem bisect_round (fuel : Nat) {l r m : Nat} (ha : Against compare e n p cell) (hn : n < 4294967296) (hlr : l ≤ r)
    (hr : r < n) (hlm : l < m) (hmr : m ≤ r) : bisect compare e cell (fuel + 1) l r m =
      if p m = 0 then .ok m
      else if 0 < p m then
        if 1 + m + (r - m) / 2 < r then bisect compare e cell fuel m r (1 + m + (r - m) / 2)
        else .ok (1 + m + (r - m) / 2)
      else
        if 1 + l + (m - l) / 2 < m then bisect compare e cell fuel l m (1 + l + (m - l) / 2)
        else .ok (1 + l + (m - l) / 2) := by
  obtain ⟨x, hx, hcmp⟩ := ha m (hmr.trans_lt hr)
  have hu₁ : u32 (1 + m + (r - m) / 2) = 1 + m + (r - m) / 2 := Nat.mod_eq_of_lt (by omega)
  have hu₂ : u32 (1 + l + (m - l) / 2) = 1 + l + (m - l) / 2 := Nat.mod_eq_of_lt (by omega)
  rw [bisect, hx]
  simp only [bind, Except.bind, hcmp]
  by_cases h0 : p m = 0
  · rw [if_pos h0, if_pos h0]
  · rw [if_neg h0, if_neg h0]
    by_cases hpos : 0 < p m
    · simp only [if_pos hpos, hu₁]
    · simp only [if_neg hpos, hu₂]

/-- An answer between `l` and `r` that is right unless the element falls in a gap that the interval skips, or behind the
last cell of the array. -/
structure Answers (n : Nat) (p : Nat → Int) (l r i : Nat) : Prop where
  lt : i < n
  gap : Gap n p i ↔ (r = n - 1 → p r ≤ 0) ∧ ∀ g, Skipped l r g → ¬ FallsIn p g

section Answers
variable {l r i : Nat} (hp : Falling n p) (hr : r < n)
include hp hr

/-- The cell `m` is tied with the element. -/
theorem answers_tie {m : Nat} (hlm : l < m) (hmr : m < r) (h0 : p m = 0) : Answers n p l r m where
  lt := hmr.trans hr
  gap := by
    refine iff_of_true ⟨fun _ => ?_, fun _ => h0.le⟩ ⟨fun _ => hp.behind h0.le hmr.le hr, fun g hg => ?_⟩
    · exact hp.before (g := m + 1) (hmr.trans hr) (show 0 ≤ p (m + 1 - 1) from h0.ge) (by omega)
    · rintro ⟨hbefore, hneg⟩
      by_cases hgm : g ≤ m
      · have := hp.neg g m hgm (hmr.trans hr) hneg
        omega
      · have hgr := hg.bounds.2
        obtain hone | hpos := hbefore
        · omega
        · have := hp.pos m (g - 1) (by omega) (by omega) hpos
          omega

/-- The element is above the middle: no gap below is one that it falls in. -/
theorem answers_upper (h3 : 3 ≤ r - l) (hpos : 0 < p (1 + l + (r - l) / 2))
    (h : Answers n p (1 + l + (r - l) / 2) r i) :
    Answers n p l r i where
  lt := h.lt
  gap := by
    rw [h.gap]
    refine and_congr_right fun _ => ⟨fun hskip g hg => ?_, fun hskip g hg => hskip g (.right h3 hg)⟩
    rcases (skipped_split h3).mp hg with hg | hg
    · rintro ⟨-, hneg⟩
      have := hp.neg g _ hg.bounds.2.le (by omega) hneg
      omega
    · exact hskip g hg

/-- The element is below the middle: no gap above is one that it falls in. -/
theorem answers_lower (h3 : 3 ≤ r - l) (hneg : p (1 + l + (r - l) / 2) < 0)
    (h : Answers n p l (1 + l + (r - l) / 2) i) :
    Answers n p l r i where
  lt := h.lt
  gap := by
    have hlast : p r ≤ 0 := hp.behind hneg.le (by omega) hr
    rw [h.gap]
    refine and_congr ⟨fun _ _ => hlast, fun _ _ => hneg.le⟩
      ⟨fun hskip g hg => ?_, fun hskip g hg => hskip g (.left h3 hg)⟩
    rcases (skipped_split h3).mp hg with hg | hg
    · exact hskip g hg
    · have hbounds := hg.bounds
      rintro ⟨hone | hpos, -⟩
      · omega
      · have := hp.pos (1 + l + (r - l) / 2) (g - 1) (by omega) (by omega) hpos
        omega

end Answers

/-- Two cells: the gap between them. -/
theorem answers_two {l : Nat} (hr : l + 1 < n) (hl : 0 < p l) (hupper : l + 1 ≠ n - 1 → p (l + 1) < 0) :
    Answers n p l (l + 1) (l + 1) where
  lt := hr
  gap := by
    constructor
    · exact fun hgap => ⟨fun _ => hgap.2 hr, fun g hg => absurd hg not_skipped_two⟩
    · rintro ⟨hlast, -⟩
      refine ⟨fun _ => hl.le, fun _ => ?_⟩
      by_cases h : l + 1 = n - 1
      · exact hlast h
      · exact (hupper h).le

/-- Three cells: the upper gap, although the element may fall in the lower one. -/
theorem answers_three {l : Nat} (hr : l + 2 < n) (hl : l ≠ 0 → 0 < p l) (hupper : l + 2 ≠ n - 1 → p (l + 2) < 0) :
    Answers n p l (l + 2) (l + 2) where
  lt := hr
  gap := by
    have hfalls : FallsIn p (l + 1) ↔ p (l + 1) < 0 := by
      refine and_iff_right ?_
      by_cases h0 : l = 0
      · exact .inl (congrArg (· + 1) h0)
      · exact .inr (hl h0)
    simp only [skipped_three, forall_eq, hfalls, not_lt]
    constructor
    · exact fun hgap => ⟨fun _ => hgap.2 hr, hgap.1 (Nat.succ_pos _)⟩
    · rintro ⟨hlast, hge⟩
      refine ⟨fun _ => hge, fun _ => ?_⟩
      by_cases h : l + 2 = n - 1
      · exact hlast h
      · exact (hupper h).le

/-- **The bisection answers**, and is right unless the element falls in a skipped gap. -/
theorem bisect_gap (compare : α → α → Int) (e : α) (fuel : Nat) (hp : Falling n p) (hn : n < 4294967296) {l r : Nat}
    (hfuel : r - l < fuel) (h3 : 3 ≤ r - l) (hr : r < n) (hl : l ≠ 0 → 0 < p l) (hupper : r ≠ n - 1 → p r < 0) :
    ∃ i, (∀ cell, Against compare e n p cell → bisect compare e cell fuel l r (1 + l + (r - l) / 2) = .ok i) ∧
      Answers n p l r i := by
  induction fuel generalizing l r with
  | zero => exact absurd hfuel (Nat.not_lt_zero _)
  | succ fuel ih =>
    have hround {cell : List (Option α)} (ha : Against compare e n p cell) :=
      bisect_round fuel (l := l) (r := r) (m := 1 + l + (r - l) / 2) ha hn (by omega) hr (by omega) (by omega)
    generalize hm : 1 + l + (r - l) / 2 = m at hround
    rcases lt_trichotomy (p m) 0 with hneg | h0 | hpos
    · -- below the middle
      have hlow {i : Nat} (h : Answers n p l m i) : Answers n p l r i := by
        subst hm
        exact answers_lower hp hr h3 hneg h
      simp only [if_neg hneg.ne, if_neg hneg.not_gt] at hround
      by_cases hml : 3 ≤ m - l
      · obtain ⟨i, hi, hans⟩ := ih (l := l) (r := m) (by omega) hml (by omega) hl fun _ => hneg
        refine ⟨i, fun cell ha => ?_, hlow hans⟩
        rw [hround ha, if_pos (by omega), hi cell ha]
      · obtain rfl : m = l + 2 := by omega
        refine ⟨l + 2, fun cell ha => ?_, hlow (answers_three (by omega) hl fun _ => hneg)⟩
        rw [hround ha, if_neg (by omega)]
        exact congrArg Except.ok (by omega)
    · refine ⟨m, fun cell ha => ?_, answers_tie hp hr (by omega) (by omega) h0⟩
      rw [hround ha, if_pos h0]
    · -- above the middle
      have hup {i : Nat} (h : Answers n p m r i) : Answers n p l r i := by
        subst hm
        exact answers_upper hp hr h3 hpos h
      simp only [if_neg hpos.ne', if_pos hpos] at hround
      by_cases hrm : 3 ≤ r - m
      · obtain ⟨i, hi, hans⟩ := ih (l := m) (r := r) (by omega) hrm hr (fun _ => hpos) hupper
        refine ⟨i, fun cell ha => ?_, hup hans⟩
        rw [hround ha, if_pos (by omega), hi cell ha]
      · refine ⟨r, fun cell ha => ?_, hup ?_⟩
        · rw [hround ha, if_neg (by omega)]
          exact congrArg Except.ok (by omega)
        · obtain rfl | rfl : r = m + 1 ∨ r = m + 2 := by omega
          · exact answers_two hr hpos hupper
          · exact answers_three hr (fun _ => hpos) hupper

end Bisect

/-! ## The binary search (`harray_find`) -/

/-- In a sorted array the search finds a cell that is tied with the key, if there is one between `l` and `u`. -/
theorem bsearch_spec {compare : α → α → Int} {e : α} {n : Nat} {p : Nat → Int} {cell : List (Option α)}
    (fuel : Nat) (ha : Against compare e n p cell) (hp : Falling n p) {l u : Nat} (hfuel : u - l < fuel) (hu : u ≤ n)
    (hbelow : ∀ i < l, 0 < p i) (habove : ∀ i, u ≤ i → i < n → p i < 0) : ∃ o, bsearch compare e cell fuel l u = .ok o ∧
      (∀ i, o = some i → i < n ∧ p i = 0) ∧ (o = none → ∀ i < n, p i ≠ 0) := by
  induction fuel generalizing l u with
  | zero => exact absurd hfuel (Nat.not_lt_zero _)
  | succ fuel ih =>
    unfold bsearch
    by_cases hlu : l < u
    · have hmid : (l + u) / 2 < n := by omega
      obtain ⟨x, hx, hcmp⟩ := ha _ hmid
      rw [if_pos hlu]
      simp only [hx, bind, Except.bind, hcmp]
      rcases lt_trichotomy (p ((l + u) / 2)) 0 with hneg | h0 | hpos
      · rw [if_pos hneg]
        exact ih (by omega) (by omega) hbelow fun i hi hin => hp.neg _ i hi hin hneg
      · rw [if_neg h0.not_lt, if_neg h0.not_gt]
        exact ⟨_, rfl, fun i hi => Option.some.inj hi ▸ ⟨hmid, h0⟩, fun h => (by cases h)⟩
      · rw [if_neg hpos.not_gt, if_pos hpos]
        exact ih (by omega) hu (fun i hi => hp.pos i _ (by omega) hmid hpos) habove
    · rw [if_neg hlu]
      refine ⟨none, rfl, fun i hi => (by cases hi), fun _ i hi => ?_⟩
      by_cases hil : i < l
      · exact (hbelow i hil).ne'
      · exact (habove i (by omega) hi).ne

/-! ## Insertions -/

/-- The element whose signs are `p` is found a place among `n`: with two cells it is not below the first, with four or
more not above the last, and it falls in no skipped gap. -/
structure Findable (n : Nat) (p : Nat → Int) : Prop where
  first : n = 2 → 0 ≤ p 0
  last : 4 ≤ n → p (n - 1) ≤ 0
  between : ∀ g, Skipped 0 (n - 1) g → ¬ FallsIn p g

/-- There is room for the element behind the last cell, or before another one. -/
def Grows (a : Harray α) (p : Nat → Int) : Prop :=
  if a.length = 0 ∨ 0 < p (a.length - 1) then Room a a.length else Room a (a.length + 1)

/-- The insertion returns the index of the element in a sorted array, which holds the old elements and this one; the
search answers on the cells below the length alone. -/
def KeepsSorted (compare : α → α → Int) (a : Harray α) (xs : List α) (e : α) : Prop :=
  ∃ k b, harrayInsertSorted a e compare = .ok (k, b) ∧ (xs.insertIdx k e)[k]? = some e ∧
    Rel b ((xs.insertIdx k e).map some) ∧ Sorted compare (xs.insertIdx k e) ∧
    (0 < xs.length → ∃ i, insertIndex ⟨a.elems, a.length⟩ e compare = .ok i)

section Insert
variable {compare : α → α → Int} {e : α} {n : Nat} {p : Nat → Int} {a : Harray α} {xs : List α}

theorem findable_zero : Findable 0 p :=
  ⟨fun h => absurd h (by decide), fun h => absurd h (by decide), fun _ hg => absurd hg.bounds (by omega)⟩

theorem findable_one : Findable 1 p :=
  ⟨fun h => absurd h (by decide), fun h => absurd h (by decide), fun _ hg => absurd hg.bounds (by omega)⟩

theorem findable_two : Findable 2 p ↔ 0 ≤ p 0 :=
  ⟨fun h => h.first rfl, fun h => ⟨fun _ => h, fun h => absurd h (by decide), fun _ hg => absurd hg.bounds (by omega)⟩⟩

theorem findable_three : Findable 3 p ↔ 0 ≤ p 1 := by
  refine ⟨fun h => ?_, fun h => ⟨fun h => absurd h (by decide), fun h => absurd h (by decide), fun g hg => ?_⟩⟩
  · by_contra hneg
    exact h.between 1 (.last 0) ⟨.inl rfl, not_le.mp hneg⟩
  · rintro ⟨-, hneg⟩
    rw [skipped_three.mp hg, Nat.zero_add] at hneg
    omega

theorem findable_more (h : 4 ≤ n) :
    Findable n p ↔ (n - 1 = n - 1 → p (n - 1) ≤ 0) ∧ ∀ g, Skipped 0 (n - 1) g → ¬ FallsIn p g :=
  ⟨fun hf => ⟨fun _ => hf.last h, hf.between⟩, fun hf => ⟨fun h2 => absurd h2 (by omega), fun _ => hf.1 rfl, hf.2⟩⟩

/-- The answer of the search: a gap of the sorted array exactly when the element is findable. -/
theorem insertIndex_gap (compare : α → α → Int) (e : α) (hp : Falling n p) (hn : n < 4294967296) (h0 : 0 < n) :
    ∃ i, (∀ a : Harray α, a.length = n → Against compare e n p a.cell → insertIndex a e compare = .ok i) ∧ i ≤ n ∧
      (i = n ↔ n ≤ 3 ∧ 0 < p (n - 1)) ∧ (Gap n p i ↔ Findable n p) := by
  have hfirst {a : Harray α} (hlen : a.length = n) (h1 : n ≠ 1) :
      insertIndex a e compare = bisect compare e a.cell n 0 (n - 1) (1 + 0 + (n - 1 - 0) / 2) := by
    have hu : u32 (1 + (n - 1) / 2) = 1 + (n - 1) / 2 := Nat.mod_eq_of_lt (by omega)
    rw [insertIndex, hlen, if_neg h1, hu, Nat.add_zero, Nat.sub_zero]
  obtain rfl | rfl | rfl | h4 : n = 1 ∨ n = 2 ∨ n = 3 ∨ 4 ≤ n := by omega
  · refine ⟨if 0 < p 0 then 1 else 0, fun a hlen ha => ?_, by split_ifs <;> omega, by split_ifs <;> simp [*], ?_⟩
    · obtain ⟨x, hx, hcmp⟩ := ha 0 h0
      rw [insertIndex, if_pos hlen, hx]
      simp only [bind, Except.bind, hcmp]
    · refine iff_of_true ?_ findable_one
      unfold Gap
      split_ifs with hpos
      · exact ⟨fun _ => hpos.le, fun h => absurd h (by decide)⟩
      · exact ⟨fun h => absurd h (by decide), fun _ => not_lt.mp hpos⟩
  · have hround {a : Harray α} (ha : Against compare e 2 p a.cell) :=
      bisect_round 1 (l := 0) (r := 1) (m := 1) ha hn (by decide) (by decide) (by decide) (by decide)
    refine ⟨if 0 < p 1 then 2 else 1, fun a hlen ha => ?_, by split_ifs <;> omega, by split_ifs <;> simp [*], ?_⟩
    · rw [hfirst hlen (by decide)]
      refine (hround ha).trans ?_
      split_ifs <;> first | rfl | omega
    · rw [findable_two]
      unfold Gap
      split_ifs with hpos
      · exact iff_of_true ⟨fun _ => hpos.le, fun h => absurd h (by decide)⟩ (hp.pos 0 1 (by decide) (by decide) hpos).le
      · exact ⟨fun h => h.1 (by decide), fun h => ⟨fun _ => h, fun _ => not_lt.mp hpos⟩⟩
  · have hround {a : Harray α} (ha : Against compare e 3 p a.cell) :=
      bisect_round 2 (l := 0) (r := 2) (m := 2) ha hn (by decide) (by decide) (by decide) (by decide)
    refine ⟨if 0 < p 2 then 3 else 2, fun a hlen ha => ?_, by split_ifs <;> omega, by split_ifs <;> simp [*], ?_⟩
    · rw [hfirst hlen (by decide)]
      refine (hround ha).trans ?_
      split_ifs <;> first | rfl | omega
    · rw [findable_three]
      unfold Gap
      split_ifs with hpos
      · exact iff_of_true ⟨fun _ => hpos.le, fun h => absurd h (by decide)⟩ (hp.pos 1 2 (by decide) (by decide) hpos).le
      · exact ⟨fun h => h.1 (by decide), fun h => ⟨fun _ => h, fun _ => not_lt.mp hpos⟩⟩
  · obtain ⟨i, hi, hans⟩ := bisect_gap (l := 0) (r := n - 1) compare e n hp hn (by omega) (by omega) (by omega)
      (fun h => absurd rfl h) (fun h => absurd rfl h)
    refine ⟨i, fun a hlen ha => ?_, hans.lt.le, ?_, ?_⟩
    · rw [hfirst hlen (by omega), hi a.cell ha]
    · have := hans.lt
      omega
    · rw [hans.gap, findable_more h4]

theorem against_of_rel {cell : List (Option α)} (h : ∀ i < xs.length, cell[i]? = (xs.map some)[i]?) :
    Against compare e xs.length (signs compare e xs) cell := by
  intro i hi
  refine ⟨xs[i], ?_, (signs_of_lt hi).symm⟩
  rw [deref, h i hi, List.getElem?_map, List.getElem?_eq_getElem hi]
  rfl

/-- `harray_find` in a sorted array: the index of a tied element, or `-1` when there is none. -/
theorem harrayFind_sorted (hc : Comparison compare) (h : Rel a (xs.map some)) (hs : Sorted compare xs) (e : α) :
    ∃ r, harrayFind a e compare = .ok r ∧
      ((∃ i, ∃ hi : i < xs.length, r = (i : Int) ∧ compare e xs[i] = 0) ∨ r = -1 ∧ ∀ x ∈ xs, compare e x ≠ 0) := by
  have hlen : a.length = xs.length := by rw [h.length, List.length_map]
  obtain ⟨o, ho, hsome, hnone⟩ := bsearch_spec (a.length + 1) (against_of_rel fun i hi => h.cell (hlen ▸ hi))
    (hs.falling hc e) (l := 0) (u := a.length) (by omega) hlen.le (fun i hi => absurd hi (Nat.not_lt_zero _))
    (fun i hi hin => absurd hin (by omega))
  unfold harrayFind
  rw [ho]
  cases o with
  | none =>
    refine ⟨-1, rfl, .inr ⟨rfl, fun x hx => ?_⟩⟩
    obtain ⟨i, hi, rfl⟩ := List.mem_iff_getElem.mp hx
    have hne := hnone rfl i hi
    rwa [signs_of_lt hi] at hne
  | some i =>
    obtain ⟨hi, h0⟩ := hsome i rfl
    rw [signs_of_lt hi] at h0
    exact ⟨i, rfl, .inl ⟨i, hi, rfl, h0⟩⟩

/-- An insertion at the gap that the search answered returns when there is room. -/
theorem insertSorted_at (h : Rel a (xs.map some)) {i : Nat} (hi : 0 < xs.length → insertIndex a e compare = .ok i)
    (hle : i ≤ xs.length) :
    (∀ k b, harrayInsertSorted a e compare = .ok (k, b) → k = i ∧ Rel b ((xs.insertIdx i e).map some)) ∧
      ((∃ k b, harrayInsertSorted a e compare = .ok (k, b)) ↔
        if i = xs.length then Room a a.length else Room a (a.length + 1)) := by
  have hlen : a.length = xs.length := by rw [h.length, List.length_map]
  have hpush {b : Harray α} (hb : harrayPush a (some e) = .ok b) :
      b.length = xs.length + 1 ∧ Rel b ((xs.insertIdx xs.length e).map some) := by
    obtain ⟨he, hfit⟩ := harrayPush_spec h.fits hb
    have hrel : Rel b ((xs.insertIdx xs.length e).map some) :=
      ⟨hfit, by rw [he, h.elems, List.insertIdx_length_self, List.map_append]; rfl⟩
    refine ⟨?_, hrel⟩
    rw [hrel.length, List.length_map, List.length_insertIdx_of_le_length le_rfl]
  unfold harrayInsertSorted
  by_cases h0 : xs.length = 0
  · obtain rfl : i = xs.length := by omega
    rw [if_pos (hlen.trans h0), if_pos rfl, ← harrayPush_room h.fits (some e)]
    cases hb : harrayPush a (some e) with
    | error f => exact ⟨fun k b hr => (by cases hr), by simp [bind, Except.bind]⟩
    | ok b =>
      refine ⟨fun k b' hr => ?_, iff_of_true ⟨0, b, rfl⟩ ⟨b, rfl⟩⟩
      cases hr
      exact ⟨h0.symm, (hpush hb).2⟩
  · have hanswer := hi (Nat.pos_of_ne_zero h0)
    simp only [if_neg (hlen ▸ h0), hanswer, bind, Except.bind]
    by_cases hend : i = xs.length
    · subst hend
      rw [if_pos hlen.le, if_pos rfl, ← harrayPush_room h.fits (some e)]
      cases hb : harrayPush a (some e) with
      | error f => exact ⟨fun k b hr => (by cases hr), by simp⟩
      | ok b =>
        obtain ⟨hblen, hrel⟩ := hpush hb
        refine ⟨fun k b' hr => ?_, iff_of_true ⟨b.length - 1, b, rfl⟩ ⟨b, rfl⟩⟩
        cases hr
        exact ⟨by rw [hblen, Nat.add_sub_cancel], hrel⟩
    · have hlt : i < a.length := by omega
      rw [if_neg (not_le.mpr hlt), if_neg hend, ← harrayInsert_room h.fits hlt (some e)]
      cases hb : harrayInsert a i (some e) with
      | error f => exact ⟨fun k b hr => (by cases hr), by simp⟩
      | ok b =>
        obtain ⟨he, hfit⟩ := harrayInsert_spec h.fits hlt hb
        refine ⟨fun k b' hr => ?_, iff_of_true ⟨i, b, rfl⟩ ⟨b, rfl⟩⟩
        cases hr
        exact ⟨rfl, hfit, by rw [he, h.elems, List.map_insertIdx]⟩

/-- The gap at which an insertion into a sorted array inserts, if it returns: a right one exactly when the element is
findable. -/
theorem insertSorted_gap (hc : Comparison compare) (h : Rel a (xs.map some)) (hunsigned : a.cell.length < 4294967296)
    (hs : Sorted compare xs) (e : α) : ∃ i ≤ xs.length,
      (0 < xs.length → insertIndex a e compare = .ok i ∧ insertIndex ⟨a.elems, a.length⟩ e compare = .ok i) ∧
      (i = xs.length ↔ xs.length ≤ 3 ∧ (xs.length = 0 ∨ 0 < signs compare e xs (xs.length - 1))) ∧
      (Sorted compare (xs.insertIdx i e) ↔ Findable xs.length (signs compare e xs)) := by
  have hlen : a.length = xs.length := by rw [h.length, List.length_map]
  have hn : xs.length < 4294967296 := hlen ▸ lt_of_le_of_lt h.fits hunsigned
  have hcell : ∀ i < xs.length, a.cell[i]? = (xs.map some)[i]? := fun i hi => h.cell (hlen ▸ hi)
  have helems : ∀ i < xs.length, a.elems[i]? = (xs.map some)[i]? := fun i _ => by rw [h.elems]
  by_cases h0 : xs.length = 0
  · refine ⟨0, Nat.zero_le _, fun hpos => absurd h0 hpos.ne', by simp [h0], ?_⟩
    obtain rfl := List.length_eq_zero_iff.mp h0
    exact iff_of_true (List.pairwise_singleton _ _) findable_zero
  · obtain ⟨i, hi, hle, hend, hgap⟩ := insertIndex_gap compare e (hs.falling hc e) hn (Nat.pos_of_ne_zero h0)
    refine ⟨i, hle, fun _ => ⟨hi a hlen (against_of_rel hcell), ?_⟩, ?_, ?_⟩
    · exact hi ⟨a.elems, a.length⟩ hlen (against_of_rel helems)
    · rw [hend, or_iff_right h0]
    · rw [sorted_insertIdx_iff hc hs hle, hgap]

/-- An insertion that returns keeps the array sorted exactly when the element is findable. -/
theorem insertSorted_sorted (hc : Comparison compare) (h : Rel a (xs.map some)) (hunsigned : a.cell.length < 4294967296)
    (hs : Sorted compare xs) {k : Nat} {b : Harray α} (hr : harrayInsertSorted a e compare = .ok (k, b)) :
    k ≤ xs.length ∧ Rel b ((xs.insertIdx k e).map some) ∧
      (Sorted compare (xs.insertIdx k e) ↔ Findable xs.length (signs compare e xs)) := by
  obtain ⟨i, hle, hi, -, hsorted⟩ := insertSorted_gap hc h hunsigned hs e
  obtain ⟨rfl, hrel⟩ := (insertSorted_at h (fun h0 => (hi h0).1) hle).1 k b hr
  exact ⟨hle, hrel, hsorted⟩

/-- **An insertion keeps the array sorted exactly when the element is found a place and there is room for it.** -/
theorem keepsSorted_iff (compare : α → α → Int) (hc : Comparison compare) (a : Harray α) (xs : List α)
    (h : Rel a (xs.map some)) (hunsigned : a.cell.length < 4294967296) (hs : Sorted compare xs) (e : α) :
    KeepsSorted compare a xs e ↔ Findable xs.length (signs compare e xs) ∧ Grows a (signs compare e xs) := by
  have hlen : a.length = xs.length := by rw [h.length, List.length_map]
  obtain ⟨i, hle, hi, hend, hsorted⟩ := insertSorted_gap hc h hunsigned hs e
  obtain ⟨hresult, hroom⟩ := insertSorted_at h (fun h0 => (hi h0).1) hle
  have hkeeps : KeepsSorted compare a xs e ↔ (∃ k b, harrayInsertSorted a e compare = .ok (k, b)) ∧
      Sorted compare (xs.insertIdx i e) := by
    constructor
    · rintro ⟨k, b, hr, -, -, hkeep, -⟩
      obtain ⟨rfl, -⟩ := hresult k b hr
      exact ⟨⟨k, b, hr⟩, hkeep⟩
    · rintro ⟨⟨k, b, hr⟩, hkeep⟩
      obtain ⟨rfl, hrel⟩ := hresult k b hr
      exact ⟨k, b, hr, by rw [List.getElem?_insertIdx_self, if_pos hle], hrel, hkeep, fun h0 => ⟨k, (hi h0).2⟩⟩
  rw [hkeeps, hsorted, hroom, and_comm]
  refine and_congr_right fun hfind => ?_
  have hcase : i = xs.length ↔ a.length = 0 ∨ 0 < signs compare e xs (a.length - 1) := by
    rw [hend, hlen]
    refine and_iff_right_of_imp fun hlast => ?_
    by_contra hmore
    have := hfind.last (by omega)
    omega
  unfold Grows
  rw [if_congr hcase rfl rfl]

/-- Behind the second of two cells there is a place. -/
theorem keepsSorted_last : KeepsSorted (fun x y => x - y) ⟨[some 1, some 2, none, none], 2⟩ [1, 2] 3 :=
  (keepsSorted_iff _ comparison_sub ⟨[some 1, some 2, none, none], 2⟩ [1, 2] ⟨Nat.le_add_right 2 2, rfl⟩ (by decide)
    (by decide) 3).mpr
    ⟨findable_two.mpr (by decide), .inl (by decide)⟩

/-- The first of two cells is never compared: an element below it is inserted behind it. -/
theorem second_below_first : ¬ ∀ (compare : Int → Int → Int) (a : Harray Int) (xs : List Int) (e : Int),
    Comparison compare → Rel a (xs.map some) → a.cell.length < 4294967296 → Sorted compare xs →
      KeepsSorted compare a xs e := by
  intro h
  obtain ⟨k, b, hr, -, -, hsorted, -⟩ := h (fun x y => x - y) ⟨[some 1, some 2, none, none], 2⟩ [1, 2] 0 comparison_sub
    ⟨Nat.le_add_right 2 2, rfl⟩ (by decide) (by decide)
  cases hr
  exact absurd hsorted (by decide)

end Insert

end Hmon
