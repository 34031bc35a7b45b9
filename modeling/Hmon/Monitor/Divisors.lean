import Hmon.Learning.Lsq
import Hmon.Monitor.Calls

/-!
# The divisors of the reducers (`stats.c`, `learning.c`)

* `Reducer.divisors` : the divisors of the divisions of a reducer; `prog_withDiv` : it makes no others;
* `noZeroDivisor_iff` : after any run of calls since a reset, **the mean and the variance divide by zero exactly when
  the number of rows taken is a multiple of `2^32`, `hmonitor_evset_var` exactly when that of the events is one of
  `2^16`, and `lsq_fit` exactly when all its targets are equal**.
-/

namespace Hmon
open Lib

/-! ## The divisors of `stats.c` -/

section Divisors
variable {V : Type} [DoubleArith V]

/-- The divisors of a reducer, in the order of its divisions. -/
def Reducer.divisors (f : Reducer) (d : Sizes) : List V :=
  match f with
  | .max | .min | .sum => []
  | .mean => List.replicate d.nEvents (Double.ofLong d.rows)
  | .var => [Double.ofLong d.rows * Double.ofLong d.rows, Double.ofLong d.rows]
  | .evsetVar => [Double.ofLong d.nEvents, Double.ofLong (u32 (d.nEvents * d.nEvents))]

/-- The same doubles with another division. -/
@[reducible] def withDiv (div : V → V → V) : DoubleArith V := { ‹DoubleArith V› with div := div }

/-- The last loop of `hmonitor_events_mean`, by the division `div`. -/
def meanDivide (div : V → V → V) (d : Sizes) : Prog Buf V Unit :=
  forRange d.nEvents () fun c _ => do
    let out ← load .samples c
    store .samples c (div out (Double.ofLong d.rows))

/-- The result of `hmonitor_evset_var`, by the division `div`. -/
def evsetVarResult (div : V → V → V) (d : Sizes) (sum squareSum : V) : V :=
  div squareSum (Double.ofLong d.nEvents) -
    div (Double.ofLong 1) (Double.ofLong (u32 (d.nEvents * d.nEvents))) * sum * sum

/-- A reducer makes no divisions but those by its divisors. -/
theorem prog_withDiv (f : Reducer) {d : Sizes} {div div' : V → V → V}
    (h : ∀ b ∈ (f.divisors d : List V), ∀ a, div a b = div' a b) :
    @Reducer.prog V (withDiv div) f d = @Reducer.prog V (withDiv div') f d := by
  cases f with
  | max | min | sum => rfl
  | mean =>
    have hdivide : meanDivide div d = meanDivide div' d := by
      unfold meanDivide
      cases hn : d.nEvents with
      | zero => rfl
      | succ n =>
        have hmem : Double.ofLong d.rows ∈ (Reducer.mean.divisors d : List V) :=
          List.mem_replicate.mpr ⟨hn ▸ Nat.succ_ne_zero n, rfl⟩
        simp only [h _ hmem]
    show (hmonitorEventsSum d >>= fun _ => meanDivide div d : Prog Buf V Unit) =
      (hmonitorEventsSum d >>= fun _ => meanDivide div' d)
    rw [hdivide]
  | var =>
    have hprog : ∀ div : V → V → V, @Reducer.prog V (withDiv div) .var d = (do
        varZero d
        varScan d
        varScale d (div (Double.ofLong 1) (Double.ofLong d.rows * Double.ofLong d.rows))
        varStore d (div (Double.ofLong 1) (Double.ofLong d.rows))) := fun _ => rfl
    rw [hprog, hprog, h _ (.head _), h _ (.tail _ (.head _))]
  | evsetVar =>
    have hprog : ∀ div : V → V → V, @Reducer.prog V (withDiv div) .evsetVar d = (do
        let sums ← forRange d.nEvents ((0, 0) : V × V) fun c sums => do
          let v ← load .events (d.getEvents d.last + c)
          pure (sums.1 + v, sums.2 + v * v)
        store .samples 0 (evsetVarResult div d sums.1 sums.2)) := fun _ => rfl
    have hresult : evsetVarResult div d = evsetVarResult div' d := by
      funext sum squareSum
      unfold evsetVarResult
      rw [h _ (.head _), h _ (.tail _ (.head _))]
    rw [hprog, hprog, hresult]

end Divisors

/-! ## After a run of calls -/

section Runs
variable {T M S : Type} {m : Hmonitor T ℚ M} {g : Gsl S} {userdata : Option (Lm S)}

/-- No division of a reduction of `m` with the reducer `f` is by zero. -/
def NoZeroDivisor (f : Reducer) (m : Hmonitor T ℚ M) : Prop := ∀ b ∈ (f.divisors m.modelSizes : List ℚ), b ≠ 0

/-- No division of a reduction of `m` with `lsq_fit` is by zero. -/
def LsqNoZeroDivisor (g : Gsl S) (userdata : Option (Lm S)) (m : Hmonitor T ℚ M) : Prop :=
  ∀ b ∈ lsqDivisors g m.modelSizes userdata m.events m.samples, b ≠ 0

theorem Sizes.rows_eq_zero {d : Sizes} (hw : 0 < d.window) : d.rows = 0 ↔ d.total = 0 := by
  unfold rows
  split_ifs <;> omega

theorem ofLong_ne_zero {n : Nat} : (Double.ofLong (n : Int) : ℚ) ≠ 0 ↔ n ≠ 0 :=
  Rat.intCast_eq_zero_iff.not.trans Int.natCast_eq_zero.not

theorem mean_noZeroDivisor (hw : 0 < m.window) (hn : 1 ≤ m.nEvents) : NoZeroDivisor .mean m ↔ m.total ≠ 0 := by
  have hrows : (Double.ofLong m.modelSizes.rows : ℚ) ≠ 0 ↔ m.total ≠ 0 :=
    ofLong_ne_zero.trans (Sizes.rows_eq_zero (d := m.modelSizes) hw).not
  rw [← hrows]
  constructor
  · intro h
    exact h _ (List.mem_replicate.mpr ⟨Nat.pos_iff_ne_zero.mp hn, rfl⟩)
  · intro h b hb
    exact List.eq_of_mem_replicate hb ▸ h

theorem var_noZeroDivisor (hw : 0 < m.window) : NoZeroDivisor .var m ↔ m.total ≠ 0 := by
  have hrows : (Double.ofLong m.modelSizes.rows : ℚ) ≠ 0 ↔ m.total ≠ 0 :=
    ofLong_ne_zero.trans (Sizes.rows_eq_zero (d := m.modelSizes) hw).not
  rw [← hrows]
  simp [NoZeroDivisor, Reducer.divisors]

/-- The product of the column count by itself, as an `unsigned`, vanishes for the multiples of `2^16`. -/
theorem u32_square_eq_zero (n : Nat) : u32 (n * n) = 0 ↔ 2 ^ 16 ∣ n := by
  have hsq : 2 ^ 32 = (2 ^ 16) ^ 2 := by norm_num
  rw [u32, ← Nat.dvd_iff_mod_eq_zero, hsq, ← sq, Nat.pow_dvd_pow_iff two_ne_zero]

theorem evsetVar_noZeroDivisor (hn : 1 ≤ m.nEvents) : NoZeroDivisor .evsetVar m ↔ ¬ 2 ^ 16 ∣ m.nEvents := by
  have hcols : (Double.ofLong m.nEvents : ℚ) ≠ 0 := ofLong_ne_zero.mpr (Nat.pos_iff_ne_zero.mp hn)
  rw [← u32_square_eq_zero, ← ne_eq, ← ofLong_ne_zero]
  simp [NoZeroDivisor, Reducer.divisors, Hmonitor.modelSizes, hcols]

variable [DecidableEq T]

variable (userdata) in
/-- **After any run of calls since a reset, each shipped reducer divides by no zero exactly under its condition: for the
mean and the variance of the events, that the number of rows taken is no multiple of `2^32`; for the variance of a row,
that the number of events is none of `2^16`; for the least squares, that two rows of the window differ in their first
event.** -/
theorem noZeroDivisor_iff (hg : g.Documented) (now : Int) (hw : 0 < m.window) (hn : 1 ≤ m.nEvents)
    (cs : List (MonitorCall T ℚ)) :
    let o := (runCalls (hmonitorReset now m) cs).1
    let taken := rowsTaken (hmonitorReset now m) cs
    (NoZeroDivisor .mean o ↔ ¬ 2 ^ 32 ∣ taken) ∧ (NoZeroDivisor .var o ↔ ¬ 2 ^ 32 ∣ taken) ∧
      (NoZeroDivisor .evsetVar o ↔ ¬ 2 ^ 16 ∣ m.nEvents) ∧
      (LsqNoZeroDivisor g userdata o ↔ (g.builds o.modelSizes.rows o.modelSizes.nFeatures = true →
        ∃ r < o.modelSizes.rows, ∃ r' < o.modelSizes.rows,
          o.events.getD (r * o.modelSizes.tda) 0 ≠ o.events.getD (r' * o.modelSizes.tda) 0)) := by
  intro o taken
  have hconfig : SameConfig (hmonitorReset now m) o := runCalls_config _ cs
  have htotal : o.total = 0 ↔ 2 ^ 32 ∣ taken := by
    rw [Nat.dvd_iff_mod_eq_zero]
    have hcount : o.total = u32 (0 + taken) := runCalls_total (Nat.two_pow_pos 32) cs
    rw [hcount, Nat.zero_add]
    rfl
  have hwindow : 0 < o.window := hconfig.window ▸ hw
  have hevents : o.nEvents = m.nEvents := hconfig.nEvents
  refine ⟨?_, ?_, ?_, lsqDivisors_iff hg⟩
  · exact (mean_noZeroDivisor hwindow (hevents ▸ hn)).trans htotal.not
  · exact (var_noZeroDivisor hwindow).trans htotal.not
  · rw [← hevents]
    exact evsetVar_noZeroDivisor (hevents ▸ hn)

end Runs

/-- A monitor of the fake plugin with three rows. -/
def rowsMonitor (nEvents : Nat) : Hmonitor ℕ ℚ ℕ :=
  (newHmonitor 0 0 { fakeSpec [] ⟨.core, 1, 0, {0}⟩ fun _ => 0 with addedEvents := nEvents, window := 3 }).get rfl

/-- The library in exact arithmetic. Its minimizer stops at once: a window that is not full is never fit. -/
def exactGsl : Gsl (List ℚ) where
  builds m _ := decide (0 < m)
  statsMean := mean
  vectorAddConstant ys c := ys.map (· + c)
  blasDdot xs ys := (List.zipWith (· * ·) xs ys).sum
  blasDgemv op alpha a x beta y :=
    match op with
    | .noTrans => List.zipWith (fun row b => alpha * (List.zipWith (· * ·) row x).sum + beta * b) a y
    | .trans => (List.range y.length).map fun j =>
      alpha * (List.zipWith (fun row b => row.getD j 0 * b) a x).sum + beta * y.getD j 0
  minimizerAlloc n := List.replicate n 0
  minimizerSet _ _ x _ _ := x
  minimizerIterate s := (27, s)
  testGradient _ _ := 0
  minimizerX s := s

theorem exactGsl_documented : exactGsl.Documented := ⟨fun _ => rfl, fun _ _ => rfl, fun _ _ _ => rfl⟩

/-- Two reads of different values divide by no zero. -/
theorem noZeroDivisor_two :
    let o := (runCalls (hmonitorReset 0 (rowsMonitor 2)) [.read 0 ⟨true, [5, 1], 1⟩, .read 0 ⟨true, [7, 2], 2⟩]).1
    NoZeroDivisor .mean o ∧ NoZeroDivisor .var o ∧ NoZeroDivisor .evsetVar o ∧ LsqNoZeroDivisor exactGsl none o := by
  obtain ⟨hmean, hvar, hevset, hlsq⟩ := noZeroDivisor_iff none exactGsl_documented 0 (m := rowsMonitor 2)
    (by decide) (by decide) [.read 0 ⟨true, [5, 1], 1⟩, .read 0 ⟨true, [7, 2], 2⟩]
  refine ⟨hmean.mpr (by decide), hvar.mpr (by decide), hevset.mpr (by decide), hlsq.mpr fun _ => ?_⟩
  exact ⟨0, by decide, 1, by decide, by decide⟩

/-- After one successful read, `lsq_fit` divides by zero, and for `2^16` events `hmonitor_evset_var`. -/
theorem one_read_divides_by_zero :
    (∃ m : Hmonitor ℕ ℚ ℕ, m.nEvents = 2 ∧ (hmonitorRead 0 ⟨true, [5, 1], 1⟩ (hmonitorReset 0 m)).ret = 1 ∧
      ¬ LsqNoZeroDivisor exactGsl none (runCalls (hmonitorReset 0 m) [.read 0 ⟨true, [5, 1], 1⟩]).1) ∧
    ∃ m : Hmonitor ℕ ℚ ℕ, m.nEvents = 2 ^ 16 ∧
      (hmonitorRead 0 ⟨true, List.replicate (2 ^ 16) 1, 1⟩ (hmonitorReset 0 m)).ret = 1 ∧
      ¬ NoZeroDivisor .evsetVar (runCalls (hmonitorReset 0 m) [.read 0 ⟨true, List.replicate (2 ^ 16) 1, 1⟩]).1 := by
  refine ⟨⟨rowsMonitor 2, rfl, by decide, ?_⟩, rowsMonitor (2 ^ 16), rfl, rfl, ?_⟩
  · unfold LsqNoZeroDivisor
    rw [lsqDivisors_iff exactGsl_documented]
    intro h
    obtain ⟨r, hr, r', hr', hne⟩ := h (by decide)
    have hrows : (runCalls (hmonitorReset 0 (rowsMonitor 2)) [.read 0 ⟨true, [5, 1], 1⟩]).1.modelSizes.rows = 1 := by
      decide
    rw [hrows, Nat.lt_one_iff] at hr hr'
    exact hne (by rw [hr, hr'])
  · intro h
    exact (evsetVar_noZeroDivisor (show 1 ≤ 2 ^ 16 by decide)).mp h (dvd_refl _)

end Hmon
