import Mathlib.Algebra.Order.Ring.Rat

/-!
# What the library uses of C

* `u32` : the value of an `unsigned` expression, reduced modulo `2^32`;
* `strcmp` : comparison of two NUL-terminated strings, as lists of their bytes;
* `Double` : the operations on `double` that the modelled functions perform, and its reading as exact rationals.
-/

namespace Hmon

/-- Reduction of an `unsigned` result. -/
def u32 (n : Nat) : Nat := n % 2 ^ 32

theorem u32_succ_ne (n : Nat) : u32 (n + 1) ≠ n := by
  unfold u32; omega

/-- The bytes of a C string, without the final NUL. -/
abbrev CString := List UInt8

/-- `strcmp`: negative, zero or positive by the first differing byte. -/
def strcmp : CString → CString → Int
  | [], [] => 0
  | [], _ :: _ => -1
  | _ :: _, [] => 1
  | a :: as, b :: bs => if a < b then -1 else if b < a then 1 else strcmp as bs

theorem strcmp_eq_zero : ∀ {s t : CString}, strcmp s t = 0 ↔ s = t
  | [], [] => by simp [strcmp]
  | [], _ :: _ => by simp [strcmp]
  | _ :: _, [] => by simp [strcmp]
  | a :: as, b :: bs => by
    unfold strcmp
    split_ifs with h1 h2
    · simp [UInt8.ne_of_lt h1]
    · simp [(UInt8.ne_of_lt h2).symm]
    · rw [strcmp_eq_zero, UInt8.le_antisymm (UInt8.not_lt.mp h2) (UInt8.not_lt.mp h1), List.cons.injEq]
      exact (and_iff_right rfl).symm

/-- C's `double`, as far as the modelled functions use it. -/
class Double (V : Type) extends LT V, Zero V, Add V where
  /-- `DBL_MIN` and `DBL_MAX` of `float.h`. -/
  dblMin : V
  dblMax : V
  /-- The conversion of a `long`. -/
  ofLong : Int → V
  decLt : DecidableLT V

instance Double.decidableLT {V : Type} [Double V] : DecidableLT V := Double.decLt

/-- Doubles read as exact rationals. -/
instance : Double ℚ where
  dblMin := 1 / 2 ^ 1022
  dblMax := (2 ^ 53 - 1) * 2 ^ 971
  ofLong n := n
  decLt := inferInstance

end Hmon
