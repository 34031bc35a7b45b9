import Mathlib.Algebra.BigOperators.Group.List.Basic
import Mathlib.Algebra.GroupWithZero.Nat

/-!
# Checked 64-bit arithmetic

* `Checked.add`, `sub`, `mul`, `div` : the operation on `UInt64` where its exact result fits, `none` elsewhere;
* `add_eq_some` and the like : **a checked operation answers exactly the exact result**;
* `exists_sub` : a difference that does not wrap;
* `sum_eq_some` : a sum from left to right.
-/

namespace Hmon.Lib.Checked

def add (a b : UInt64) : Option UInt64 := if a.toNat + b.toNat < 2 ^ 64 then some (a + b) else none

def sub (a b : UInt64) : Option UInt64 := if b.toNat ≤ a.toNat then some (a - b) else none

def mul (a b : UInt64) : Option UInt64 := if a.toNat * b.toNat < 2 ^ 64 then some (a * b) else none

def div (a b : UInt64) : Option UInt64 := if b = 0 then none else some (a / b)

/-- `((a + x₁) + x₂) + …` -/
def sum (a : UInt64) (xs : List UInt64) : Option UInt64 := xs.foldlM add a

variable {a b c : UInt64} {xs : List UInt64} {n : Nat}

theorem exists_toNat : (∃ c : UInt64, c.toNat = n) ↔ n < 2 ^ 64 := by
  constructor
  · rintro ⟨c, rfl⟩
    exact c.toNat_lt
  · intro h
    exact ⟨UInt64.ofNat n, UInt64.toNat_ofNat_of_lt' h⟩

theorem add_eq_some : add a b = some c ↔ c.toNat = a.toNat + b.toNat := by
  unfold add
  have hc := c.toNat_lt
  split_ifs with h
  · rw [Option.some.injEq, ← UInt64.toNat_inj, UInt64.toNat_add, Nat.mod_eq_of_lt h]
    exact eq_comm
  · constructor
    · intro hnone
      cases hnone
    · intro hsum
      omega

theorem sub_eq_some : sub a b = some c ↔ c.toNat + b.toNat = a.toNat := by
  unfold sub
  split_ifs with h
  · rw [Option.some.injEq, ← UInt64.toNat_inj, UInt64.toNat_sub_of_le a b (UInt64.le_iff_toNat_le.mpr h)]
    omega
  · constructor
    · intro hnone
      cases hnone
    · intro hsum
      omega

theorem exists_sub (h : b.toNat ≤ a.toNat) : ∃ c, sub a b = some c ∧ c.toNat = a.toNat - b.toNat := by
  obtain ⟨c, hc⟩ := exists_toNat.mpr (Nat.lt_of_le_of_lt (Nat.sub_le a.toNat b.toNat) a.toNat_lt)
  exact ⟨c, sub_eq_some.mpr (by omega), hc⟩

theorem mul_eq_some : mul a b = some c ↔ c.toNat = a.toNat * b.toNat := by
  unfold mul
  have hc := c.toNat_lt
  split_ifs with h
  · rw [Option.some.injEq, ← UInt64.toNat_inj, UInt64.toNat_mul, Nat.mod_eq_of_lt h]
    exact eq_comm
  · constructor
    · intro hnone
      cases hnone
    · intro hprod
      omega

theorem div_eq_some : div a b = some c ↔ b.toNat ≠ 0 ∧ c.toNat = a.toNat / b.toNat := by
  have hb : b = 0 ↔ b.toNat = 0 := by rw [← UInt64.toNat_inj, UInt64.toNat_zero]
  unfold div
  split_ifs with h
  · rw [hb] at h
    simp [h]
  · rw [hb] at h
    rw [Option.some.injEq, ← UInt64.toNat_inj, UInt64.toNat_div, and_iff_right h]
    exact eq_comm

theorem sum_eq_some : sum a xs = some c ↔ c.toNat = a.toNat + (xs.map UInt64.toNat).sum := by
  unfold sum
  induction xs generalizing a with
  | nil =>
    rw [List.foldlM_nil, List.map_nil, List.sum_nil, add_zero, UInt64.toNat_inj, Option.pure_def, Option.some.injEq]
    exact eq_comm
  | cons x xs ih =>
    rw [List.foldlM_cons, Option.bind_eq_bind, Option.bind_eq_some_iff, List.map_cons, List.sum_cons]
    constructor
    · rintro ⟨s, hs, hc⟩
      rw [ih.mp hc, add_eq_some.mp hs, add_assoc]
    · intro hc
      have hfit : a.toNat + x.toNat < 2 ^ 64 := by
        have := c.toNat_lt
        omega
      obtain ⟨s, hs⟩ := exists_toNat.mpr hfit
      exact ⟨s, add_eq_some.mpr hs, ih.mpr (by rw [hc, hs, add_assoc])⟩

/-! ## Against wrapping arithmetic -/

theorem eq_add (h : add a b = some c) : a + b = c := by
  unfold add at h
  split_ifs at h
  exact Option.some.inj h

theorem eq_sub (h : sub a b = some c) : a - b = c := by
  unfold sub at h
  split_ifs at h
  exact Option.some.inj h

theorem eq_mul (h : mul a b = some c) : a * b = c := by
  unfold mul at h
  split_ifs at h
  exact Option.some.inj h

theorem eq_div (h : div a b = some c) : b ≠ 0 ∧ a / b = c := by
  unfold div at h
  split_ifs at h with hb
  exact ⟨hb, Option.some.inj h⟩

theorem eq_sum (h : sum a xs = some c) : xs.foldl (· + ·) a = c := by
  unfold sum at h
  induction xs generalizing a with
  | nil => exact Option.some.inj h
  | cons x xs ih =>
    rw [List.foldlM_cons] at h
    obtain ⟨s, hs, h⟩ := Option.bind_eq_some_iff.mp h
    rw [List.foldl_cons, eq_add hs]
    exact ih h

end Hmon.Lib.Checked
