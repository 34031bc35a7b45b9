import Hmon.Lib.Printf
import Mathlib.Tactic.Linarith
import Mathlib.Tactic.Positivity
import Mathlib.Tactic.Ring

/-!
# Rounding to 53 bits

* `round53` : a rational rounded to 53 bits, to the nearest and half to even, as the results of `double` arithmetic are
  within the range of the normal numbers; the exponent is not bounded;
* `Has53Bits` : the numbers that are their own rounding (`round53_eq_self`);
* `round53_le`, `le_round53` : **rounding does not pass such a number**;
* `round53_le_mul` : the relative error; `gap_le` : the distance of two numbers of 53 bits;
* `round53_le_hundred_iff` : what is rounded to at most 100;
* `Binary64` : the numbers of 53 bits.
-/

namespace Hmon.Lib

/-! ## Rounding to an integer -/

theorem le_roundEven {q : ℚ} {n : ℕ} (h : (n : ℚ) ≤ q) : n ≤ roundEven q := by
  have hfloor : n ≤ ⌊q⌋₊ := Nat.le_floor h
  unfold roundEven
  extract_lets f
  split_ifs
  · exact hfloor
  · exact hfloor.trans (Nat.le_succ _)

theorem roundEven_natCast (n : ℕ) : roundEven n = n := le_antisymm (roundEven_le le_rfl) (le_roundEven le_rfl)

theorem roundEven_error {q : ℚ} (hq : 0 ≤ q) : |(roundEven q : ℚ) - q| ≤ 1 / 2 := by
  have hlow := Nat.floor_le hq
  have hhigh := Nat.lt_floor_add_one q
  unfold roundEven
  extract_lets f
  split_ifs with h
  · have hle : q - f ≤ 1 / 2 := h.elim le_of_lt fun h => h.1.le
    rw [abs_le]
    constructor <;> linarith
  · have hge : 1 / 2 ≤ q - f := not_lt.mp fun hlt => h (.inl hlt)
    rw [abs_le]
    push_cast
    constructor <;> linarith

/-- The middle above an even number belongs to it. -/
theorem roundEven_le_even_iff {q : ℚ} {n : ℕ} (hq : 0 ≤ q) (hn : n % 2 = 0) : roundEven q ≤ n ↔ q ≤ n + 1 / 2 := by
  constructor
  · intro h
    have herror := (abs_le.mp (roundEven_error hq)).1
    have hle : (roundEven q : ℚ) ≤ n := Nat.cast_le.mpr h
    linarith
  · intro h
    by_cases hle : q ≤ n
    · exact roundEven_le hle
    · have hfloor : ⌊q⌋₊ = n := (Nat.floor_eq_iff hq).mpr ⟨(not_le.mp hle).le, by linarith⟩
      have hfirst : q - n < 1 / 2 ∨ q - n = 1 / 2 ∧ n % 2 = 0 := by
        rcases h.lt_or_eq with hlt | heq
        · exact .inl (by linarith)
        · exact .inr ⟨by linarith, hn⟩
      unfold roundEven
      rw [hfloor, if_pos hfirst]

/-! ## Numbers of 53 bits -/

/-- The weight of the last of the 53 bits. -/
def lastPlace (q : ℚ) : ℚ := 2 ^ (Int.log 2 |q| - 52)

/-- To 53 bits, to the nearest and half to even. -/
def round53 (q : ℚ) : ℚ :=
  let n := roundEven (|q| / lastPlace q)
  if q < 0 then -(n * lastPlace q) else n * lastPlace q

def Has53Bits (q : ℚ) : Prop := ∃ (m : ℕ) (k : ℤ), m ≤ 2 ^ 53 ∧ |q| = m * 2 ^ k

theorem lastPlace_pos (q : ℚ) : 0 < lastPlace q := zpow_pos (by norm_num) _

theorem lastPlace_mul (q : ℚ) : 2 ^ 52 * lastPlace q = 2 ^ Int.log 2 |q| := by
  unfold lastPlace
  rw [← zpow_natCast, ← zpow_add₀ (by norm_num)]
  congr 1
  omega

section Positive
variable {q c d : ℚ}

theorem round53_of_pos (hq : 0 < q) : round53 q = roundEven (q / lastPlace q) * lastPlace q := by
  unfold round53
  simp only
  rw [if_neg hq.not_gt, abs_of_pos hq]

theorem two_pow_log_le (hq : 0 < q) : (2 : ℚ) ^ Int.log 2 |q| ≤ q := by
  rw [abs_of_pos hq]
  exact_mod_cast Int.zpow_log_le_self (by decide : 1 < 2) hq

theorem lt_two_pow_log (hq : 0 < q) : q < 2 * (2 : ℚ) ^ Int.log 2 |q| := by
  have h : q < (2 : ℚ) ^ (Int.log 2 q + 1) := by exact_mod_cast Int.lt_zpow_succ_log_self (by decide : 1 < 2) q
  rwa [abs_of_pos hq, mul_comm, ← zpow_add_one₀ (by norm_num)]

/-- The significand lies between `2 ^ 52` and `2 ^ 53`. -/
theorem significand_bounds (hq : 0 < q) : 2 ^ 52 ≤ q / lastPlace q ∧ q / lastPlace q < 2 ^ 53 := by
  have hpos := lastPlace_pos q
  have hmul := lastPlace_mul q
  rw [le_div_iff₀ hpos, div_lt_iff₀ hpos, hmul]
  have hlt := lt_two_pow_log hq
  refine ⟨two_pow_log_le hq, ?_⟩
  calc q < 2 * 2 ^ Int.log 2 |q| := hlt
    _ = 2 ^ 53 * lastPlace q := by rw [← hmul]; ring

theorem round53_lower (hq : 0 < q) : (2 : ℚ) ^ Int.log 2 |q| ≤ round53 q := by
  have hn : 2 ^ 52 ≤ roundEven (q / lastPlace q) := le_roundEven (by exact_mod_cast (significand_bounds hq).1)
  have hn' : ((2 : ℚ) ^ 52) ≤ roundEven (q / lastPlace q) := by exact_mod_cast hn
  rw [round53_of_pos hq, ← lastPlace_mul]
  exact mul_le_mul_of_nonneg_right hn' (lastPlace_pos q).le

theorem round53_pos (hq : 0 < q) : 0 < round53 q := (zpow_pos (by norm_num) _).trans_le (round53_lower hq)

/-- A number of 53 bits that is not below a power of two is a multiple of the last place there. -/
theorem Has53Bits.grid {e : ℤ} (hc : Has53Bits c) (h : (2 : ℚ) ^ e ≤ c) : ∃ n : ℕ, c = n * 2 ^ (e - 52) := by
  obtain ⟨m, k, hm, hck⟩ := hc
  rw [abs_of_pos ((zpow_pos (by norm_num) _).trans_le h)] at hck
  by_cases hk : e - 52 ≤ k
  · refine ⟨m * 2 ^ (k - (e - 52)).toNat, ?_⟩
    have hsplit : (2 : ℚ) ^ k = 2 ^ (k - (e - 52)).toNat * 2 ^ (e - 52) := by
      rw [← zpow_natCast, ← zpow_add₀ (by norm_num), Int.toNat_of_nonneg (by omega), sub_add_cancel]
    rw [hck, hsplit, Nat.cast_mul, Nat.cast_pow, Nat.cast_ofNat, mul_assoc]
  · -- all 53 bits are used up below the power
    have hle : (m : ℚ) * 2 ^ k ≤ 2 ^ 53 * 2 ^ (e - 53) := by
      have hpow : (2 : ℚ) ^ k ≤ 2 ^ (e - 53) := zpow_le_zpow_right₀ (by norm_num) (by omega)
      have hm' : (m : ℚ) ≤ 2 ^ 53 := by exact_mod_cast hm
      exact mul_le_mul hm' hpow (zpow_pos (by norm_num) k).le (by positivity)
    have htop : (2 : ℚ) ^ 53 * 2 ^ (e - 53) = 2 ^ e := by
      rw [← zpow_natCast, ← zpow_add₀ (by norm_num)]
      congr 1
      omega
    have hce : c = 2 ^ e := le_antisymm (by rw [hck]; exact hle.trans htop.le) h
    refine ⟨2 ^ 52, ?_⟩
    rw [hce, Nat.cast_pow, Nat.cast_ofNat, ← zpow_natCast, ← zpow_add₀ (by norm_num)]
    congr 1
    omega

theorem round53_le (hq : 0 < q) (hc : Has53Bits c) (h : q ≤ c) : round53 q ≤ c := by
  obtain ⟨n, hn⟩ := hc.grid ((two_pow_log_le hq).trans h)
  have hn : c = n * lastPlace q := hn
  rw [round53_of_pos hq, hn]
  refine mul_le_mul_of_nonneg_right (Nat.cast_le.mpr (roundEven_le ?_)) (lastPlace_pos q).le
  rw [div_le_iff₀ (lastPlace_pos q), ← hn]
  exact h

theorem le_round53 (hq : 0 < q) (hc : Has53Bits c) (h : c ≤ q) : c ≤ round53 q := by
  by_cases hlow : (2 : ℚ) ^ Int.log 2 |q| ≤ c
  · obtain ⟨n, hn⟩ := hc.grid hlow
    have hn : c = n * lastPlace q := hn
    rw [round53_of_pos hq, hn]
    refine mul_le_mul_of_nonneg_right (Nat.cast_le.mpr (le_roundEven ?_)) (lastPlace_pos q).le
    rw [le_div_iff₀ (lastPlace_pos q), ← hn]
    exact h
  · exact (not_le.mp hlow).le.trans (round53_lower hq)

/-- Rounding goes up by at most half of the last of 53 bits. -/
theorem round53_le_mul (hq : 0 < q) : round53 q ≤ q * (1 + 1 / 2 ^ 53) := by
  have hpos := lastPlace_pos q
  have herror := (abs_le.mp (roundEven_error (div_pos hq hpos).le)).2
  have hplace : 2 ^ 52 * lastPlace q ≤ q := (lastPlace_mul q).trans_le (two_pow_log_le hq)
  have hup : (roundEven (q / lastPlace q) : ℚ) * lastPlace q ≤ (q / lastPlace q + 1 / 2) * lastPlace q :=
    mul_le_mul_of_nonneg_right (by linarith) hpos.le
  rw [add_mul, div_mul_cancel₀ _ hpos.ne'] at hup
  rw [round53_of_pos hq]
  linarith

/-- Two numbers of 53 bits are at least one last bit apart. -/
theorem gap_le (hc : Has53Bits c) (hd : Has53Bits d) (hpos : 0 < c) (h : c < d) : c * (1 + 1 / 2 ^ 53) ≤ d := by
  obtain ⟨m, hm⟩ := hc.grid (two_pow_log_le hpos)
  obtain ⟨n, hn⟩ := hd.grid ((two_pow_log_le hpos).trans h.le)
  have hm : c = m * lastPlace c := hm
  have hn : d = n * lastPlace c := hn
  have hplace := lastPlace_pos c
  have hmn : m < n := by
    rw [hm, hn] at h
    exact Nat.cast_lt.mp (lt_of_mul_lt_mul_right h hplace.le)
  have hstep : c + lastPlace c ≤ d := by
    have hle : ((m : ℚ) + 1) * lastPlace c ≤ n * lastPlace c :=
      mul_le_mul_of_nonneg_right (by exact_mod_cast hmn) hplace.le
    rw [add_mul, one_mul, ← hm, ← hn] at hle
    exact hle
  have hlow := lt_two_pow_log hpos
  rw [← lastPlace_mul] at hlow
  linarith

end Positive

@[simp] theorem round53_zero : round53 0 = 0 := by
  unfold round53
  simp only [abs_zero, zero_div, lt_self_iff_false, if_false]
  rw [show roundEven 0 = 0 from by exact_mod_cast roundEven_natCast 0, Nat.cast_zero, zero_mul]

theorem round53_eq_self {q : ℚ} (hq : 0 ≤ q) (h : Has53Bits q) : round53 q = q := by
  rcases hq.lt_or_eq with hpos | rfl
  · exact le_antisymm (round53_le hpos h le_rfl) (le_round53 hpos h le_rfl)
  · exact round53_zero

theorem has53Bits_natCast {n : ℕ} (h : n ≤ 2 ^ 53) : Has53Bits n :=
  ⟨n, 0, h, by rw [zpow_zero, mul_one, abs_of_nonneg (Nat.cast_nonneg n)]⟩

theorem round53_natCast {n : ℕ} (h : n ≤ 2 ^ 53) : round53 n = n :=
  round53_eq_self (Nat.cast_nonneg n) (has53Bits_natCast h)

theorem has53Bits_round53 (q : ℚ) : Has53Bits (round53 q) := by
  refine ⟨roundEven (|q| / lastPlace q), Int.log 2 |q| - 52, ?_, ?_⟩
  · rcases eq_or_ne q 0 with rfl | h0
    · rw [abs_zero, zero_div, show roundEven 0 = 0 from by exact_mod_cast roundEven_natCast 0]
      exact Nat.zero_le _
    · have hbound := (significand_bounds (abs_pos.mpr h0)).2.le
      unfold lastPlace at hbound ⊢
      rw [abs_abs] at hbound
      exact roundEven_le (by exact_mod_cast hbound)
  · have hnonneg : 0 ≤ (roundEven (|q| / lastPlace q) : ℚ) * lastPlace q :=
      mul_nonneg (Nat.cast_nonneg _) (lastPlace_pos q).le
    unfold round53
    simp only
    split_ifs
    · rw [abs_neg, abs_of_nonneg hnonneg]
      rfl
    · rw [abs_of_nonneg hnonneg]
      rfl

/-! ## Around 100 -/

theorem lastPlace_eq {q : ℚ} {e : ℤ} (hlow : 2 ^ e ≤ q) (hhigh : q < 2 ^ (e + 1)) : lastPlace q = 2 ^ (e - 52) := by
  have hpos : 0 < q := (zpow_pos (by norm_num) e).trans_le hlow
  have hlog : Int.log 2 |q| = e := by
    rw [abs_of_pos hpos]
    refine le_antisymm (Int.lt_add_one_iff.mp ?_) ?_
    · exact (Int.lt_zpow_iff_log_lt (by decide) hpos).mp (by exact_mod_cast hhigh)
    · exact (Int.zpow_le_iff_le_log (by decide) hpos).mp (by exact_mod_cast hlow)
  unfold lastPlace
  rw [hlog]

/-- The numbers rounded to at most 100 are those up to half a last place above it. -/
theorem round53_le_hundred_iff {q : ℚ} (hq : 0 < q) : round53 q ≤ 100 ↔ q ≤ 100 + 1 / 2 ^ 47 := by
  have hhundred : Has53Bits 100 := by exact_mod_cast has53Bits_natCast (n := 100) (by norm_num)
  have htop : Has53Bits 128 := by exact_mod_cast has53Bits_natCast (n := 128) (by norm_num)
  by_cases hlow : q < 64
  · have hle : q ≤ 100 := by linarith
    exact iff_of_true (round53_le hq hhundred hle) (hle.trans (by norm_num))
  by_cases hhigh : 128 ≤ q
  · have hge := le_round53 hq htop hhigh
    exact iff_of_false (by linarith) (by rw [not_le]; exact lt_of_lt_of_le (by norm_num) hhigh)
  have hplace : lastPlace q = 1 / 2 ^ 46 :=
    (lastPlace_eq (e := 6) (by norm_num; exact not_lt.mp hlow) (by norm_num; exact not_le.mp hhigh)).trans (by norm_num)
  have heven : 100 * 2 ^ 46 % 2 = 0 := by norm_num
  have hscaled : q / lastPlace q = q * 2 ^ 46 := by rw [hplace]; ring
  rw [round53_of_pos hq, hscaled, hplace]
  calc (roundEven (q * 2 ^ 46) : ℚ) * (1 / 2 ^ 46) ≤ 100
      ↔ roundEven (q * 2 ^ 46) ≤ 100 * 2 ^ 46 := by
        rw [mul_one_div, div_le_iff₀ (by positivity)]
        norm_cast
    _ ↔ q * 2 ^ 46 ≤ (100 * 2 ^ 46 : ℕ) + 1 / 2 := roundEven_le_even_iff (by positivity) heven
    _ ↔ q ≤ 100 + 1 / 2 ^ 47 := by
        push_cast
        constructor <;> intro h <;> linarith

/-! ## The numbers of 53 bits -/

/-- A `double`, as long as its exponent is that of a normal number. -/
@[ext] structure Binary64 where
  val : ℚ
  bits : Has53Bits val

namespace Binary64

instance : DecidableEq Binary64 := fun a b => decidable_of_iff (a.val = b.val) ⟨Binary64.ext, congrArg val⟩

/-- The result of an operation whose exact result is `q`. -/
def of (q : ℚ) : Binary64 := ⟨round53 q, has53Bits_round53 q⟩

@[simp] theorem of_val (q : ℚ) : (of q).val = round53 q := rfl

theorem of_natCast_inj_zero {n : ℕ} : of n = of 0 ↔ n = 0 := by
  constructor
  · intro h
    have hval : round53 n = 0 := (congrArg val h).trans round53_zero
    by_contra h0
    exact (round53_pos (Nat.cast_pos.mpr (Nat.pos_of_ne_zero h0))).ne' hval
  · rintro rfl
    rw [Nat.cast_zero]

end Binary64
end Hmon.Lib
