import Hmon.Lib.Extrema
import Hmon.Monitor.Calls
import Hmon.Monitor.Values
import Mathlib.Tactic.Linarith
import Mathlib.Tactic.Positivity

/-!
# Maxima and minima (`hmonitor_reduce`, `hmonitor_events_max`, `hmonitor_events_min`)

`hmonitor_reset` starts every maximum at `DBL_MIN`, the smallest positive double, and every minimum at `DBL_MAX`; the
two reducers start the same way.

* `runCalls_extremes` : the extremes are folds of the samples after each successful reduction;
* `column` : the values of an event in the rows below the total; `ReducesTo` : a reducer stores one of them;
* `extremes_iff` : **the minima are always right, and a maximum exactly when some value is at least `DBL_MIN`**.
-/

namespace Hmon
open Lib

variable {T V M : Type} [DecidableEq T] [DoubleArith V]

/-! ## The extremes of a run -/

/-- Any other call leaves the extremes alone. -/
theorem run_extremes {m : Hmonitor T V M} {c : MonitorCall T V} (h : c.reduces m = false) :
    (c.run m).max = m.max ∧ (c.run m).min = m.min := by
  rcases run_cases m c with ⟨-, -, now, events, he⟩ | ⟨-, hr, -⟩ | ⟨-, -, stopped, owner, mutex, he⟩
  · exact he ▸ ⟨rfl, rfl⟩
  · exact absurd (hr.symm.trans h) (by decide)
  · exact he ▸ ⟨rfl, rfl⟩

/-- A successful reduction compares each sample with its extremes. -/
theorem run_reduction {m : Hmonitor T V M} {c : MonitorCall T V} (h : c.reduces m = true) {i : Nat} {x y s : V}
    (hx : m.max[i]? = some x) (hy : m.min[i]? = some y) (hs : (c.run m).samples[i]? = some s) :
    (c.run m).max[i]? = some (later (· < ·) x s) ∧ (c.run m).min[i]? = some (later (fun a b => b < a) y s) := by
  rcases run_cases m c with ⟨-, hr, -⟩ | ⟨-, -, samples, he⟩ | ⟨-, hr, -⟩
  · exact absurd (h.symm.trans hr) (by decide)
  · rw [he] at hs ⊢
    simp only [List.getElem?_zipWith, hx, hy, hs]
    exact ⟨rfl, rfl⟩
  · exact absurd (h.symm.trans hr) (by decide)

/-- The extremes are folds of the samples, from the values that the reset gave them. -/
theorem runCalls_extremes {m : Hmonitor T V M} {cs : List (MonitorCall T V)} {i : Nat} {x y : V} {vs : List V}
    (hx : m.max[i]? = some x) (hy : m.min[i]? = some y) (hvs : (runCalls m cs).2.map (·[i]?) = vs.map some) :
    (runCalls m cs).1.max[i]? = some (vs.foldl (later (· < ·)) x) ∧
      (runCalls m cs).1.min[i]? = some (vs.foldl (later fun a b => b < a) y) := by
  induction cs generalizing m x y vs with
  | nil =>
    obtain rfl : vs = [] := by simpa [runCalls] using hvs.symm
    exact ⟨hx, hy⟩
  | cons c cs ih =>
    simp only [runCalls] at hvs ⊢
    by_cases hr : c.reduces m = true
    · rw [if_pos hr, List.map_cons] at hvs
      cases vs with
      | nil => cases hvs
      | cons v vs =>
        obtain ⟨hv, hvs⟩ := List.cons.inj hvs
        obtain ⟨hx', hy'⟩ := run_reduction hr hx hy hv
        rw [List.foldl_cons, List.foldl_cons]
        exact ih hx' hy' hvs
    · rw [if_neg hr] at hvs
      obtain ⟨hmax, hmin⟩ := run_extremes (Bool.eq_false_of_not_eq_true hr)
      exact ih (hmax ▸ hx) (hmin ▸ hy) hvs

/-! ## The reducers -/

/-- The values of the event `c` in the rows below the total, `none` for one that the buffer does not have. -/
def column (m : Hmonitor T V M) (c : Nat) : List (Option V) :=
  (List.range m.sizes.rows).map fun r => m.events[m.sizes.getEvents r + c]?

/-- The reducer `f` stores the last of the values of the column `c` in the order `r`. -/
def StoresLast (r : V → V → Prop) (f : Reducer) (m : Hmonitor T V M) (c : Nat) : Prop :=
  ∃ vs x, column m c = vs.map some ∧ (reduceWith f m).samples[c]? = some x ∧ Last r x vs

omit [DecidableEq T] in
theorem column_values {m : Hmonitor T V M} {c : Nat} {vs : List V} (h : column m c = vs.map some) :
    vs = (List.range m.sizes.rows).map fun r => m.sizes.value m.events r c := by
  have hD := congrArg (List.map fun o : Option V => o.getD 0) h
  rw [List.map_map, List.map_id''] at hD
  · rw [← hD]
    unfold column
    rw [List.map_map]
    refine List.map_congr_left fun r _ => ?_
    unfold Sizes.value
    rw [List.getD_eq_getElem?_getD]
    rfl
  · exact fun _ => rfl

/-- A reducer that keeps the last value of each column and starts from `x`. -/
theorem storesLast_iff {r : V → V → Prop} [DecidableRel r] [IsStrictTotalOrder V r] {f : Reducer} {x : V}
    (hf : f.prog = foldRows x (later r)) {m : Hmonitor T V M} {c : Nat} (hc : c < m.nEvents) :
    StoresLast r f m c ↔ c < m.samples.length ∧ ∃ vs : List V, column m c = vs.map some ∧ ∃ v ∈ vs, ¬ r v x := by
  have hsamples : (reduceWith f m).samples = (foldRows x (later r) m.modelSizes
      (reducerArrays m.nEvents m.events m.samples)).2.cells .samples := by
    rw [reduceWith_samples, hf]
  have hfold := foldRows_sample x (later r) m.modelSizes (s := reducerArrays m.nEvents m.events m.samples) rfl rfl c hc
  have hvalue : ∀ vs : List V, column m c = vs.map some →
      overRows m.modelSizes m.events x (later r) c m.sizes.rows = vs.foldl (later r) x := by
    intro vs hvs
    rw [column_values hvs, List.foldl_map]
    rfl
  unfold StoresLast
  rw [hsamples]
  by_cases hlt : c < m.samples.length
  · rw [hfold.sample hlt]
    constructor
    · rintro ⟨vs, y, hvs, hy, hlast⟩
      rw [← Option.some.inj hy] at hlast
      refine ⟨hlt, vs, hvs, last_foldl_iff.mp ?_⟩
      rw [← hvalue vs hvs]
      exact hlast
    · rintro ⟨-, vs, hvs, hv⟩
      refine ⟨vs, _, hvs, rfl, ?_⟩
      have hlast := last_foldl_iff.mpr hv
      rw [← hvalue vs hvs] at hlast
      exact hlast
  · refine iff_of_false ?_ fun h => hlt h.1
    rintro ⟨vs, y, -, hy, -⟩
    rw [List.getElem?_eq_none (by rw [hfold.length]; exact not_lt.mp hlt)] at hy
    cases hy

/-! ## Exactly when -/

section Order
variable [IsStrictTotalOrder V (· < ·)]

instance swap_isStrictTotalOrder : IsStrictTotalOrder V fun a b => b < a :=
  inferInstanceAs (IsStrictTotalOrder V (Function.swap (· < ·)))

/-- The minima are right: the start is no less than any value. -/
theorem runCalls_min (hmax : ∀ a : V, ¬ Double.dblMax < a) {now : Int} {m : Hmonitor T V M}
    {cs : List (MonitorCall T V)} {i : Nat} {vs : List V} (hi : i < m.nSamples) (hne : vs ≠ [])
    (hvs : (runCalls (hmonitorReset now m) cs).2.map (·[i]?) = vs.map some) :
    ∃ x, (runCalls (hmonitorReset now m) cs).1.min[i]? = some x ∧ Last (fun a b => b < a) x vs := by
  obtain ⟨-, hmin⟩ := runCalls_extremes (m := hmonitorReset now m) (List.getElem?_replicate_of_lt hi)
    (List.getElem?_replicate_of_lt hi) hvs
  obtain ⟨v, hv⟩ := List.exists_mem_of_ne_nil vs hne
  exact ⟨_, hmin, last_foldl_iff.mpr ⟨v, hv, hmax v⟩⟩

theorem runCalls_max_iff {now : Int} {m : Hmonitor T V M} {cs : List (MonitorCall T V)} {i : Nat} {vs : List V}
    (hi : i < m.nSamples) (hvs : (runCalls (hmonitorReset now m) cs).2.map (·[i]?) = vs.map some) :
    (∃ x, (runCalls (hmonitorReset now m) cs).1.max[i]? = some x ∧ Last (· < ·) x vs) ↔
      ∃ v ∈ vs, ¬ v < Double.dblMin := by
  obtain ⟨hmax, -⟩ := runCalls_extremes (m := hmonitorReset now m) (List.getElem?_replicate_of_lt hi)
    (List.getElem?_replicate_of_lt hi) hvs
  rw [hmax, ← last_foldl_iff]
  simp

/-- **In any run of calls after a reset with a successful reduction, and in any window content, the extremes of a
sample or of an event are the greatest and the least of its values exactly when one of them is at least `DBL_MIN`.** -/
theorem extremes_iff (hmax : ∀ a : V, ¬ Double.dblMax < a) :
    (∀ (now : Int) (m : Hmonitor T V M) (cs : List (MonitorCall T V)) (i : Nat) (vs : List V), i < m.nSamples →
      vs ≠ [] → (runCalls (hmonitorReset now m) cs).2.map (·[i]?) = vs.map some →
      let o := (runCalls (hmonitorReset now m) cs).1
      ((∃ x, o.max[i]? = some x ∧ Last (· < ·) x vs) ∧ (∃ x, o.min[i]? = some x ∧ Last (fun a b => b < a) x vs) ↔
        ∃ v ∈ vs, ¬ v < Double.dblMin)) ∧
    ∀ (m : Hmonitor T V M) (c : Nat), c < m.nEvents →
      (StoresLast (· < ·) .max m c ∧ StoresLast (fun a b => b < a) .min m c ↔
        c < m.samples.length ∧ ∃ vs : List V, column m c = vs.map some ∧ ∃ v ∈ vs, ¬ v < Double.dblMin) := by
  constructor
  · intro now m cs i vs hi hne hvs o
    rw [← runCalls_max_iff hi hvs]
    exact and_iff_left (runCalls_min hmax hi hne hvs)
  · intro m c hc
    rw [storesLast_iff (x := Double.dblMin) rfl hc, storesLast_iff (x := Double.dblMax) rfl hc]
    refine and_iff_left_of_imp ?_
    rintro ⟨hlt, vs, hvs, v, hv, -⟩
    exact ⟨hlt, vs, hvs, v, hv, hmax v⟩

end Order

/-! ## Doubles up to `DBL_MAX` -/

def cap : ℚ := (2 ^ 53 - 1) * 2 ^ 971

theorem le_cap {q : ℚ} (h : q ≤ 2 ^ 53 - 1) : q ≤ cap := by
  have hpow : (1 : ℚ) ≤ 2 ^ 971 := one_le_pow₀ one_le_two
  exact h.trans (le_mul_of_one_le_right (by norm_num) hpow)

/-- A rational between `-DBL_MAX` and `DBL_MAX`. -/
structure Capped where
  val : ℚ
  le : val ≤ cap
  ge : -cap ≤ val

namespace Capped

/-- The rational, or the end that it is beyond. -/
def of (q : ℚ) : Capped where
  val := max (-cap) (min q cap)
  le := max_le (neg_le_self (le_cap (by norm_num))) (min_le_right _ _)
  ge := le_max_left _ _

theorem of_val {q : ℚ} (h : |q| ≤ 2 ^ 53 - 1) : (of q).val = q := by
  have hle := abs_le.mp (le_cap h)
  show max (-cap) (min q cap) = q
  rw [min_eq_left hle.2, max_eq_right hle.1]

instance : DoubleArith Capped where
  lt a b := a.val < b.val
  zero := of 0
  add a b := of (a.val + b.val)
  mul a b := of (a.val * b.val)
  sub a b := of (a.val - b.val)
  div a b := of (a.val / b.val)
  dblMin := of (1 / 2 ^ 1022)
  dblMax := of cap
  ofLong n := of n
  decLt a b := inferInstanceAs (Decidable (a.val < b.val))

theorem lt_iff {a b : Capped} : a < b ↔ a.val < b.val := Iff.rfl

theorem ext {a b : Capped} (h : a.val = b.val) : a = b := by
  cases a
  cases b
  cases h
  rfl

instance isStrictTotalOrder : IsStrictTotalOrder Capped (· < ·) where
  irrefl a := lt_irrefl a.val
  trans _ _ _ hab hbc := lt_trans (α := ℚ) hab hbc
  trichotomous _ _ hab hba := ext (le_antisymm (not_lt.mp hba) (not_lt.mp hab))

theorem not_dblMax_lt (a : Capped) : ¬ (Double.dblMax : Capped) < a :=
  not_lt.mpr (a.le.trans ((le_min le_rfl le_rfl).trans (le_max_right _ _)))

/-- `DBL_MIN` is positive and at most 1. -/
theorem dblMin_val : 0 < (Double.dblMin : Capped).val ∧ (Double.dblMin : Capped).val ≤ 1 := by
  have hpow : (1 : ℚ) ≤ 2 ^ 1022 := one_le_pow₀ one_le_two
  have hpos : (0 : ℚ) < 1 / 2 ^ 1022 := by positivity
  have hle : (1 : ℚ) / 2 ^ 1022 ≤ 1 := div_le_self zero_le_one hpow
  have hval : (Double.dblMin : Capped).val = 1 / 2 ^ 1022 := of_val (by
    rw [abs_of_pos hpos]
    exact hle.trans (by norm_num))
  rw [hval]
  exact ⟨hpos, hle⟩

end Capped

/-- A monitor of the fake plugin with one event, whose doubles are capped. -/
def cappedMonitor : Hmonitor ℕ Capped ℕ := (newHmonitor 0 0 (fakeSpec [] ⟨.core, 1, 0, {0}⟩ fun _ => 0)).get rfl

/-- The owner reads a value and reduces it. -/
def readReduce (v : Capped) : List (MonitorCall ℕ Capped) := [.read 0 ⟨true, [v], 1⟩, .reduce 0]

/-- The same with two rows. -/
def cappedWindow : Hmonitor ℕ Capped ℕ :=
  (newHmonitor 0 0 { fakeSpec [] ⟨.core, 1, 0, {0}⟩ fun _ => 0 with window := 2 }).get rfl

theorem Capped.large {q : ℚ} (h : |q| ≤ 2 ^ 53 - 1) (hq : 1 ≤ q) : ¬ Capped.of q < Double.dblMin := by
  rw [Capped.lt_iff, Capped.of_val h, not_lt]
  exact Capped.dblMin_val.2.trans hq

/-- The values 5, -2 and 3 are read and reduced one by one; the two rows then hold 3 and -2. -/
theorem extremes_five :
    let o := (runCalls (hmonitorReset 0 cappedWindow)
      (readReduce (Capped.of 5) ++ readReduce (Capped.of (-2)) ++ readReduce (Capped.of 3))).1
    ((∃ x, o.max[0]? = some x ∧ Last (· < ·) x [Capped.of 5, Capped.of (-2), Capped.of 3]) ∧
      (∃ x, o.min[0]? = some x ∧ Last (fun a b => b < a) x [Capped.of 5, Capped.of (-2), Capped.of 3])) ∧
    column o 0 = [some (Capped.of 3), some (Capped.of (-2))] ∧
      StoresLast (· < ·) .max o 0 ∧ StoresLast (fun a b => b < a) .min o 0 :=
  have five := Capped.large (q := 5) (by norm_num) (by norm_num)
  have three := Capped.large (q := 3) (by norm_num) (by norm_num)
  ⟨((extremes_iff Capped.not_dblMax_lt).1 0 cappedWindow _ 0 [Capped.of 5, Capped.of (-2), Capped.of 3] (by decide)
      (List.cons_ne_nil _ _) rfl).mpr ⟨_, List.mem_cons_self, five⟩,
    rfl,
    ((extremes_iff Capped.not_dblMax_lt).2 _ 0 (by decide)).mpr
      ⟨by decide, [Capped.of 3, Capped.of (-2)], rfl, _, List.mem_cons_self, three⟩⟩

/-- After one reduction of the value -5, the maximum is `DBL_MIN`. -/
theorem negative_maximum : let o := (runCalls (hmonitorReset 0 cappedMonitor) (readReduce (Capped.of (-5)))).1
    o.samples = [Capped.of (-5)] ∧ ¬ ∃ x, o.max[0]? = some x ∧ Last (· < ·) x [Capped.of (-5)] := by
  refine ⟨rfl, fun h => ?_⟩
  have hval : (Capped.of (-5)).val = -5 := Capped.of_val (by norm_num)
  have hsamples : (runCalls (hmonitorReset 0 cappedMonitor) (readReduce (Capped.of (-5)))).2.map (·[0]?) =
      [Capped.of (-5)].map some := rfl
  obtain ⟨v, hv, hlarge⟩ := (runCalls_max_iff (by decide) hsamples).mp h
  have hpos := Capped.dblMin_val.1
  rw [List.mem_singleton.mp hv, Capped.lt_iff, hval] at hlarge
  linarith

end Hmon
