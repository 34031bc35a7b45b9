import Hmon.Harray
import Mathlib.Data.Nat.Find

/-!
# When an array can grow (`harray_chk_length`)

* `doubled` : the allocation after some doublings; `doubleUntil_iff` : where the loop stops;
* `SetFits`, `InsertFits` : what `harray_set` and `harray_insert` need of the allocation;
* `growth_iff` : **the calls end, stay inside the allocation and keep the length below it exactly when these hold**.
-/

namespace Hmon
open Harray

variable {α : Type}

/-! ## The doubling loop -/

/-- `allocated_length` after `k` doublings. -/
def doubled (allocated k : Nat) : Nat := u32 (allocated * 2 ^ k)

theorem doubled_succ (allocated k : Nat) : doubled (u32 (allocated * 2)) k = doubled allocated (k + 1) := by
  have hpow : allocated * 2 ^ (k + 1) = allocated * 2 * 2 ^ k := by rw [Nat.pow_succ' (n := k), Nat.mul_assoc]
  unfold doubled u32
  rw [hpow, Nat.mod_mul_mod]

/-- After 32 doublings nothing is left. -/
theorem doubled_zero {allocated k : Nat} (hk : 32 ≤ k) : doubled allocated k = 0 := by
  obtain ⟨j, rfl⟩ := Nat.exists_eq_add_of_le hk
  unfold doubled u32
  rw [Nat.pow_add, Nat.mul_left_comm]
  exact Nat.mul_mod_right _ _

theorem doubleUntil_iff {fuel allocated n x : Nat} : doubleUntil fuel allocated n = some x ↔
    ∃ k < fuel, doubled allocated (k + 1) = x ∧ n ≤ x ∧ ∀ j < k, doubled allocated (j + 1) < n := by
  induction fuel generalizing allocated with
  | zero => simp [doubleUntil]
  | succ fuel ih =>
    rw [doubleUntil]
    have hone : doubled allocated 1 = u32 (allocated * 2) := rfl
    by_cases hlt : u32 (allocated * 2) < n
    · rw [if_pos hlt, ih]
      simp only [doubled_succ]
      constructor
      · rintro ⟨k, hk, hx, hn, hbefore⟩
        refine ⟨k + 1, Nat.succ_lt_succ hk, hx, hn, fun j hj => ?_⟩
        cases j with
        | zero => exact hlt
        | succ j => exact hbefore j (Nat.lt_of_succ_lt_succ hj)
      · rintro ⟨k, hk, hx, hn, hbefore⟩
        cases k with
        | zero =>
          rw [Nat.zero_add, hone] at hx
          omega
        | succ k =>
          exact ⟨k, Nat.lt_of_succ_lt_succ hk, hx, hn, fun j hj => hbefore (j + 1) (Nat.succ_lt_succ hj)⟩
    · rw [if_neg hlt, Option.some.injEq]
      constructor
      · rintro rfl
        exact ⟨0, Nat.succ_pos _, rfl, not_lt.mp hlt, fun j hj => absurd hj (Nat.not_lt_zero j)⟩
      · rintro ⟨k, -, hx, -, hbefore⟩
        cases k with
        | zero => exact hx
        | succ k => exact absurd (hbefore 0 (Nat.succ_pos _)) hlt

/-- The loop stops at the first doubling that is large enough. -/
theorem doubleUntil_first {allocated n k : Nat} (hn : 0 < n) (hk : n ≤ doubled allocated (k + 1)) :
    ∃ k₀ ≤ k, doubleUntil 33 allocated n = some (doubled allocated (k₀ + 1)) ∧ n ≤ doubled allocated (k₀ + 1) := by
  have hex : ∃ k, n ≤ doubled allocated (k + 1) := ⟨k, hk⟩
  have hfirst := Nat.find_spec hex
  have hfuel : Nat.find hex < 33 := by
    by_contra hlarge
    rw [doubled_zero (by omega)] at hfirst
    omega
  exact ⟨Nat.find hex, Nat.find_min' hex hk, doubleUntil_iff.mpr
    ⟨Nat.find hex, hfuel, rfl, hfirst, fun j hj => not_le.mp (Nat.find_min hex hj)⟩, hfirst⟩

/-! ## What the calls need -/

/-- `harray_set` at the index `i`: the comparison of the loop is strict, so that an allocation of `i` cells ends it. -/
def SetFits (allocated i : Nat) : Prop :=
  i < allocated ∨ ∃ k, i < doubled allocated (k + 1) ∧ ∀ j < k, doubled allocated (j + 1) ≠ i

/-- `harray_insert` into `length` elements. -/
def InsertFits (allocated length : Nat) : Prop :=
  length + 1 < allocated ∨ ∃ k, length + 1 ≤ doubled allocated (k + 1)

theorem doubleUntil_above {allocated i : Nat} (h0 : 0 < i) :
    (∃ x, doubleUntil 33 allocated i = some x ∧ i < x) ↔
      ∃ k, i < doubled allocated (k + 1) ∧ ∀ j < k, doubled allocated (j + 1) ≠ i := by
  constructor
  · rintro ⟨x, hx, hlt⟩
    obtain ⟨k, -, rfl, -, hbefore⟩ := doubleUntil_iff.mp hx
    exact ⟨k, hlt, fun j hj => (hbefore j hj).ne⟩
  · rintro ⟨k, hlt, hne⟩
    obtain ⟨k₀, hle, hsome, hge⟩ := doubleUntil_first h0 hlt.le
    refine ⟨_, hsome, ?_⟩
    rcases Nat.lt_or_eq_of_le hle with hk | rfl
    · exact lt_of_le_of_ne hge (hne k₀ hk).symm
    · exact hlt

theorem doubleUntil_enough {allocated n : Nat} (h0 : 0 < n) :
    (∃ x, doubleUntil 33 allocated n = some x ∧ n ≤ x) ↔ ∃ k, n ≤ doubled allocated (k + 1) := by
  constructor
  · rintro ⟨x, hx, hle⟩
    obtain ⟨k, -, rfl, -⟩ := doubleUntil_iff.mp hx
    exact ⟨k, hle⟩
  · rintro ⟨k, hle⟩
    obtain ⟨k₀, -, hsome, hge⟩ := doubleUntil_first h0 hle
    exact ⟨_, hsome, hge⟩

section Calls
variable {a : Harray α} {i n : Nat}

/-- The allocation behind a growth. -/
theorem harrayChkLength_grown (hf : a.Fits) (hn : a.cell.length ≤ n) (P : Nat → Prop) :
    (∃ c, harrayChkLength a n = .ok c ∧ P c.cell.length) ↔ ∃ x, doubleUntil 33 a.cell.length n = some x ∧ P x := by
  unfold harrayChkLength
  rw [if_pos hn]
  cases hd : doubleUntil 33 a.cell.length n with
  | none => simp
  | some x =>
    obtain ⟨-, -, -, hx, -⟩ := doubleUntil_iff.mp hd
    have hlen : (a.cell.take a.length ++ List.replicate (x - a.length) none).length = x := by
      unfold Harray.Fits at hf
      rw [List.length_append, List.length_take, List.length_replicate]
      omega
    simp only [Except.ok.injEq, exists_eq_left', Option.some.injEq, hlen]

theorem harraySet_ok_iff (hf : a.Fits) (e : Option α) :
    (∃ r b, harraySet a i e = .ok (r, b) ∧ b.Fits) ↔ ∃ c, harrayChkLength a i = .ok c ∧ i < c.cell.length := by
  unfold harraySet
  simp only [bind, Except.bind]
  cases hc : harrayChkLength a i with
  | error f => simp
  | ok c =>
    obtain ⟨-, -, hfit⟩ := harrayChkLength_spec hf hc
    by_cases hlt : i < c.cell.length
    · simp only [if_pos hlt, Except.ok.injEq, Prod.mk.injEq, exists_eq_left']
      refine iff_of_true ⟨_, _, ⟨rfl, rfl⟩, ?_⟩ hlt
      unfold Harray.Fits at hfit ⊢
      rw [List.length_set]
      show (if c.length ≤ i then i + 1 else c.length) ≤ _
      split_ifs
      · exact hlt
      · exact hfit
    · simp [hlt]

theorem harraySet_fits_iff (hf : a.Fits) (h0 : 0 < a.cell.length) (e : Option α) :
    (∃ r b, harraySet a i e = .ok (r, b) ∧ b.Fits) ↔ SetFits a.cell.length i := by
  rw [harraySet_ok_iff hf]
  unfold SetFits
  by_cases hlt : i < a.cell.length
  · have hchk : harrayChkLength a i = .ok a := if_neg (not_le.mpr hlt)
    exact iff_of_true ⟨a, hchk, hlt⟩ (Or.inl hlt)
  · rw [harrayChkLength_grown hf (not_lt.mp hlt) (i < ·), or_iff_right hlt]
    exact doubleUntil_above (h0.trans_le (not_lt.mp hlt))

theorem harrayPush_fits_iff (hf : a.Fits) (h0 : 0 < a.cell.length) (e : Option α) :
    (∃ b, harrayPush a e = .ok b ∧ b.Fits) ↔ SetFits a.cell.length a.length := by
  rw [← harraySet_fits_iff hf h0 e]
  unfold harrayPush
  simp only [bind, Except.bind]
  cases harraySet a a.length e with
  | error f => simp
  | ok p =>
    obtain ⟨r, b⟩ := p
    simp

theorem harrayInsert_fits_iff (hf : a.Fits) (e : Option α) :
    (∃ b, harrayInsert a i e = .ok b ∧ b.Fits) ↔ (i < a.length → InsertFits a.cell.length a.length) := by
  unfold harrayInsert
  by_cases hi : a.length ≤ i
  · rw [if_pos hi]
    exact iff_of_true ⟨a, rfl, hf⟩ fun hlt => absurd hi (not_le.mpr hlt)
  rw [if_neg hi, forall_prop_of_true (not_le.mp hi)]
  have hroom : (∃ c, harrayChkLength a (a.length + 1) = .ok c ∧ a.length + 1 ≤ c.cell.length) ↔
      InsertFits a.cell.length a.length := by
    unfold InsertFits
    by_cases hlt : a.length + 1 < a.cell.length
    · have hchk : harrayChkLength a (a.length + 1) = .ok a := if_neg (not_le.mpr hlt)
      exact iff_of_true ⟨a, hchk, hlt.le⟩ (Or.inl hlt)
    · rw [harrayChkLength_grown hf (not_lt.mp hlt) (a.length + 1 ≤ ·), or_iff_right hlt]
      exact doubleUntil_enough (Nat.succ_pos _)
  rw [← hroom]
  simp only [bind, Except.bind]
  cases hc : harrayChkLength a (a.length + 1) with
  | error f => simp
  | ok c =>
    obtain ⟨hlen, -, -⟩ := harrayChkLength_spec hf hc
    simp only [hlen, Except.ok.injEq, exists_eq_left']
    by_cases hle : a.length + 1 ≤ c.cell.length
    · rw [if_pos hle]
      refine iff_of_true ⟨_, rfl, ?_⟩ hle
      show _ ≤ (List.set _ i e).length
      rw [List.length_set, length_memmove hle (not_le.mp hi).le]
      exact hle
    · simp [hle]

end Calls

/-- **`harray_set`, `harray_push` and `harray_insert` end, access only cells of the allocation and keep the length
below it exactly when the index or the length fits the allocation as it is or doubled.** -/
theorem growth_iff {a : Harray α} (hf : a.Fits) (h0 : 1 ≤ a.cell.length) (i : Nat) (e : Option α) :
    ((∃ r b, harraySet a i e = .ok (r, b) ∧ b.Fits) ↔ SetFits a.cell.length i) ∧
    ((∃ b, harrayPush a e = .ok b ∧ b.Fits) ↔ SetFits a.cell.length a.length) ∧
    ((∃ b, harrayInsert a i e = .ok b ∧ b.Fits) ↔ (i < a.length → InsertFits a.cell.length a.length)) :=
  ⟨harraySet_fits_iff hf h0 e, harrayPush_fits_iff hf h0 e, harrayInsert_fits_iff hf e⟩

theorem growth_inside : ∃ r b, harraySet (newHarray 4 : Harray Nat) 5 (some 7) = .ok (r, b) ∧ b.Fits :=
  (growth_iff (newHarray_fits 4) (by decide) 5 (some 7)).1.mpr (Or.inr ⟨0, by decide, by simp⟩)

/-- At the index 8, an allocation of 4 cells is doubled once, to 8 cells. -/
theorem growth_stops_early : harraySet (newHarray 4 : Harray Nat) 8 (some 7) = .error .outOfBounds ∧
    ¬ ∀ (a : Harray Nat) (i : Nat) (e : Option Nat), a.Fits → 1 ≤ a.cell.length → a.cell.length < 2 ^ 32 → i < 2 ^ 32 →
      ∃ r b, harraySet a i e = .ok (r, b) ∧ b.Fits := by
  refine ⟨rfl, fun h => ?_⟩
  obtain ⟨r, b, hb, -⟩ := h (newHarray 4) 8 (some 7) (newHarray_fits 4) (by decide) (by decide) (by decide)
  cases hb

end Hmon
