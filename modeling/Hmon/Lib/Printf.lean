import Hmon.Lib.Scanf
import Mathlib.Data.Int.Log
import Mathlib.Data.Rat.Floor

/-!
# Formatted output

* `roundEven`, `fixed`, `exponential` : the conversions `%.nf` and `%.ne` of an exact rational, rounded half to even;
* `length_exponential_le` : **a finite `double` in `%.ne` has at most `n + 8` characters**;
* `precision` : the conversion `%.*s`;
* `snprintf` : the bytes that `snprintf` stores, `length_snprintf_le` : **never more than its size**;
* `truncate`, `doubleToInt` : the conversion of a number to an `int`.
-/

namespace Hmon.Lib

/-- The nearest natural number, the even one of two. -/
def roundEven (q : ℚ) : Nat :=
  let n := ⌊q⌋₊
  if q - n < 1 / 2 ∨ q - n = 1 / 2 ∧ n % 2 = 0 then n else n + 1

def decimal (n : Nat) : List Char := Nat.toDigits 10 n

/-- Decimal digits behind zeros, at least `width` characters. -/
def zeroPadded (width n : Nat) : List Char := List.replicate (width - (decimal n).length) '0' ++ decimal n

/-- `%.nf` with `n > 0` digits. -/
def fixed (digits : Nat) (q : ℚ) : List Char :=
  let n := roundEven (|q| * 10 ^ digits)
  (if q < 0 then ['-'] else []) ++ decimal (n / 10 ^ digits) ++ '.' :: zeroPadded digits (n % 10 ^ digits)

/-- `%.ne` with `n > 0` digits: one digit before the point, and an exponent of two digits at least. -/
def exponential (digits : Nat) (q : ℚ) : List Char :=
  let e := if q = 0 then 0 else Int.log 10 |q|
  let n := roundEven (|q| / 10 ^ e * 10 ^ digits)
  -- a mantissa that is rounded up to 10
  let (n, e) := if n = 10 ^ (digits + 1) then (10 ^ digits, e + 1) else (n, e)
  (if q < 0 then ['-'] else []) ++ decimal (n / 10 ^ digits) ++ '.' :: zeroPadded digits (n % 10 ^ digits) ++
    'e' :: (if e < 0 then '-' else '+') :: zeroPadded 2 e.natAbs

/-- `%.*s`: a negative precision is none. -/
def precision (p : Int) (text : List Char) : List Char := if p < 0 then text else text.take p.toNat

/-- An `int` as an argument of type `size_t`. -/
def sizeT (n : Int) : Nat := (n % 2 ^ 64).toNat

/-- The bytes that `snprintf` stores. -/
def snprintf (size : Nat) (text : List Char) : List Char :=
  if size = 0 then [] else text.take (size - 1) ++ ['\x00']

/-! ## The characters of numbers -/

/-- A character of a printed number. -/
def Printed (c : Char) : Prop := c.isDigit = true ∨ c ∈ ['-', '+', '.', 'e']

theorem Printed.not_space {c : Char} (h : Printed c) : isspace c = false := by
  rcases h with h | h
  · exact isspace_digit h
  · simp only [List.mem_cons, List.not_mem_nil, or_false] at h
    rcases h with rfl | rfl | rfl | rfl <;> rfl

theorem printed_decimal (n : Nat) : ∀ c ∈ decimal n, Printed c := fun c hc => .inl (digit_toDigits n c hc)

theorem printed_showInt (i : Int) : ∀ c ∈ showInt i, Printed c := by
  cases i with
  | ofNat n => exact printed_decimal n
  | negSucc n =>
    intro c hc
    rcases List.mem_cons.mp hc with rfl | hc
    · exact .inr (by decide)
    · exact printed_decimal (n + 1) c hc

theorem printed_zeroPadded (width n : Nat) : ∀ c ∈ zeroPadded width n, Printed c := by
  intro c hc
  rcases List.mem_append.mp hc with h | h
  · exact .inl (by rw [(List.mem_replicate.mp h).2]; rfl)
  · exact printed_decimal n c h

theorem printed_exponential (digits : Nat) (q : ℚ) : ∀ c ∈ exponential digits q, Printed c := by
  intro c hc
  unfold exponential at hc
  extract_lets e n at hc
  generalize (if n = 10 ^ (digits + 1) then (10 ^ digits, e + 1) else (n, e)) = r at hc
  obtain ⟨n, e⟩ := r
  simp only [List.mem_append, List.mem_cons] at hc
  rcases hc with ((hc | hc) | rfl | hc) | rfl | rfl | hc
  · split_ifs at hc
    · exact .inr (List.mem_of_mem_head? (by rw [List.mem_singleton.mp hc]; rfl))
    · exact absurd hc List.not_mem_nil
  · exact printed_decimal _ c hc
  · exact .inr (by decide)
  · exact printed_zeroPadded _ _ c hc
  · exact .inr (by decide)
  · split_ifs
    · exact .inr (by decide)
    · exact .inr (by decide)
  · exact printed_zeroPadded _ _ c hc

theorem zero_not_mem_exponential (digits : Nat) (q : ℚ) : '\x00' ∉ exponential digits q := fun h =>
  absurd (printed_exponential digits q _ h) (by unfold Printed; decide)

theorem exponential_ne_nil (digits : Nat) (q : ℚ) : exponential digits q ≠ [] :=
  List.append_ne_nil_of_right_ne_nil _ (List.cons_ne_nil _ _)

/-! ## The length of a number -/

/-- Zero, or of a magnitude that a `double` can have. -/
def IsDouble (q : ℚ) : Prop := q = 0 ∨ 1 / 2 ^ 1074 ≤ |q| ∧ |q| < 2 ^ 1024

theorem roundEven_le {q : ℚ} {n : Nat} (h : q ≤ n) : roundEven q ≤ n := by
  have hfloor : ⌊q⌋₊ ≤ n := Nat.floor_le_of_le h
  unfold roundEven
  extract_lets f
  split_ifs with hr
  · exact hfloor
  · rcases hfloor.lt_or_eq with hlt | heq
    · exact hlt
    · refine absurd (Or.inl ?_) hr
      have hf : (f : ℚ) = n := congrArg Nat.cast heq
      rw [hf]
      linarith

theorem length_decimal_le {n k : Nat} (hk : 0 < k) (h : n < 10 ^ k) : (decimal n).length ≤ k :=
  (Nat.length_toDigits_le_iff (by decide) hk).mpr h

theorem length_zeroPadded_le {width n k : Nat} (hw : width ≤ k) (hk : 0 < k) (h : n < 10 ^ k) :
    (zeroPadded width n).length ≤ k := by
  have := length_decimal_le hk h
  unfold zeroPadded
  rw [List.length_append, List.length_replicate]
  omega

theorem two_pow_le : (2 : ℚ) ^ 1074 ≤ 10 ^ 358 := by
  have hpow : (2 : ℚ) ^ 1074 = (2 ^ 3) ^ 358 := pow_mul 2 3 358
  rw [hpow]
  exact pow_le_pow_left₀ (by norm_num) (by norm_num) 358

/-- The decimal exponent of a `double` has three digits. -/
theorem log_double {q : ℚ} (h : IsDouble q) (h0 : q ≠ 0) : -358 ≤ Int.log 10 |q| ∧ Int.log 10 |q| < 358 := by
  obtain ⟨hmin, hmax⟩ := h.resolve_left h0
  have hpos : 0 < |q| := abs_pos.mpr h0
  have hsmall : ((10 : Nat) : ℚ) ^ (-358 : Int) ≤ |q| := by
    refine le_trans ?_ hmin
    rw [zpow_neg, zpow_ofNat, one_div]
    exact inv_anti₀ (by positivity) two_pow_le
  have hlarge : |q| < ((10 : Nat) : ℚ) ^ (358 : Int) := by
    refine hmax.trans_le (le_trans ?_ two_pow_le)
    exact pow_le_pow_right₀ (by norm_num) (by norm_num)
  exact ⟨(Int.zpow_le_iff_le_log (by decide) hpos).mp hsmall, (Int.lt_zpow_iff_log_lt (by decide) hpos).mp hlarge⟩

/-- The mantissa is below ten. -/
theorem mantissa_le (q : ℚ) (digits : Nat) :
    roundEven (|q| / 10 ^ Int.log 10 |q| * 10 ^ digits) ≤ 10 ^ (digits + 1) := by
  have hpos : (0 : ℚ) < 10 ^ Int.log 10 |q| := zpow_pos (by norm_num) _
  have hlt : |q| < 10 ^ (Int.log 10 |q| + 1) := by exact_mod_cast Int.lt_zpow_succ_log_self (by decide : 1 < 10) |q|
  have hten : |q| / 10 ^ Int.log 10 |q| ≤ 10 := by
    rw [div_le_iff₀ hpos, ← zpow_one_add₀ (by norm_num), add_comm]
    exact hlt.le
  refine roundEven_le ?_
  rw [pow_succ']
  push_cast
  exact mul_le_mul_of_nonneg_right hten (by positivity)

theorem length_exponential_le {digits : Nat} (hd : 0 < digits) {q : ℚ} (h : IsDouble q) :
    (exponential digits q).length ≤ digits + 8 := by
  have hparts {n : Nat} {e : Int} (hn : n < 10 ^ (digits + 1)) (he : -400 ≤ e ∧ e ≤ 400) :
      ((if q < 0 then ['-'] else []) ++ decimal (n / 10 ^ digits) ++ '.' :: zeroPadded digits (n % 10 ^ digits) ++
        'e' :: (if e < 0 then '-' else '+') :: zeroPadded 2 e.natAbs).length ≤ digits + 8 := by
    have hsign : (if q < 0 then ['-'] else []).length ≤ 1 := by split_ifs <;> decide
    have hone : (decimal (n / 10 ^ digits)).length ≤ 1 := by
      refine length_decimal_le (by decide) (Nat.div_lt_of_lt_mul ?_)
      rwa [pow_one, ← pow_succ]
    have hfraction : (zeroPadded digits (n % 10 ^ digits)).length ≤ digits :=
      length_zeroPadded_le le_rfl hd (Nat.mod_lt _ (by positivity))
    have hexp : (zeroPadded 2 e.natAbs).length ≤ 3 := length_zeroPadded_le (by decide) (by decide) (by omega)
    simp only [List.length_append, List.length_cons]
    omega
  have hzero : 10 ^ digits < 10 ^ (digits + 1) := Nat.pow_lt_pow_right (by decide) (Nat.lt_succ_self digits)
  unfold exponential
  extract_lets e n
  have he : -358 ≤ e ∧ e < 358 := by
    by_cases h0 : q = 0
    · have hlog : e = 0 := if_pos h0
      omega
    · have hlog : e = Int.log 10 |q| := if_neg h0
      rw [hlog]
      exact log_double h h0
  have hn : n ≤ 10 ^ (digits + 1) := by
    by_cases h0 : q = 0
    · refine roundEven_le ?_
      rw [h0, abs_zero, zero_div, zero_mul]
      positivity
    · have hlog : e = Int.log 10 |q| := if_neg h0
      show roundEven (|q| / 10 ^ e * 10 ^ digits) ≤ _
      rw [hlog]
      exact mantissa_le q digits
  generalize hr : (if n = 10 ^ (digits + 1) then (10 ^ digits, e + 1) else (n, e)) = r
  split_ifs at hr with hten
  · rw [← hr]
    exact hparts hzero (by omega)
  · rw [← hr]
    exact hparts (lt_of_le_of_ne hn hten) (by omega)

theorem length_snprintf_le (size : Nat) (text : List Char) : (snprintf size text).length ≤ size := by
  unfold snprintf
  split_ifs with h
  · exact Nat.zero_le _
  · rw [List.length_append, List.length_take, List.length_singleton]
    omega

theorem sizeT_of_nonneg {n : Int} (h : 0 ≤ n) (hlt : n < 2 ^ 64) : sizeT n = n.toNat := by
  unfold sizeT
  rw [Int.emod_eq_of_lt h hlt]

/-! ## Numbers as `int` -/

/-- Towards zero. -/
def truncate (q : ℚ) : Int := if 0 ≤ q then ⌊q⌋ else ⌈q⌉

/-- The conversion of a `double` to `int`; `none` out of range, where it is undefined. -/
def doubleToInt (q : ℚ) : Option Int :=
  if -2 ^ 31 ≤ truncate q ∧ truncate q < 2 ^ 31 then some (truncate q) else none

theorem truncate_nonneg {q : ℚ} : 0 ≤ truncate q ↔ -1 < q := by
  unfold truncate
  split_ifs with h
  · exact iff_of_true (Int.floor_nonneg.mpr h) (lt_of_lt_of_le (by decide) h)
  · rw [← Int.sub_one_lt_iff, zero_sub, Int.lt_ceil]
    norm_cast

theorem truncate_le {q : ℚ} {n : Int} (hn : 0 ≤ n) : truncate q ≤ n ↔ q < n + 1 := by
  have hn' : (0 : ℚ) ≤ n := Int.cast_nonneg hn
  unfold truncate
  split_ifs with h
  · rw [← Int.lt_add_one_iff, Int.floor_lt]
    norm_cast
  · have hneg := not_le.mp h
    refine iff_of_true (Int.ceil_le.mpr ?_) ?_
    · exact hneg.le.trans hn'
    · exact hneg.trans (lt_of_le_of_lt hn' (lt_add_one _))

/-- A number converts to an `int` between 0 and `n`. -/
theorem doubleToInt_between {q : ℚ} {n : Int} (hn : 0 ≤ n) (hlt : n < 2 ^ 31) :
    (∃ f, doubleToInt q = some f ∧ 0 ≤ f ∧ f ≤ n) ↔ -1 < q ∧ q < n + 1 := by
  rw [← truncate_nonneg, ← truncate_le hn]
  unfold doubleToInt
  constructor
  · rintro ⟨f, hf, hpos, hle⟩
    split_ifs at hf
    rw [Option.some.inj hf]
    exact ⟨hpos, hle⟩
  · rintro ⟨hpos, hle⟩
    exact ⟨truncate q, if_pos ⟨by omega, by omega⟩, hpos, hle⟩

end Hmon.Lib
