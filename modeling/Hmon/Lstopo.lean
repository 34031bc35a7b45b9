import Hmon.Lib.CString
import Hmon.Thread.System

/-!
# The drawing of an object (`callback` in `lstopo.c`)

* `colour` : the colour of a value between the extremes of the past values; `draws` : the boxes and the text of an object;
* `callback` : the callback, with the cells and the conversions that it uses;
* `Ranged` : a sample lies between its extremes, or both are those of a reset; `hmonSys_ranged` : **in every reachable
  state of the library**;
* `colour_mono` : a larger sample is not less red;
* `callback_exact` : **the first monitor that displays one of its samples is drawn, in a colour between green and red and
  with its whole value, unless its extremes are equal: the conversion of the colour is then undefined**, in exact arithmetic
  and for the types of the switch: for an object of another type the callback returns -1.
-/

namespace Hmon.Lstopo
open Lib

variable {M : Type}

/-! ## The callback -/

structure Colour where
  r : Int
  g : Int
  b : Int
  deriving DecidableEq

/-- `val`, `r`, `g` and `b`, in exact arithmetic; `none` where the conversion to `int` is undefined. -/
def colour (sample max min : ℚ) : Option Colour :=
  if max = min then none
  else
    let val := (sample - min) / (max - min)
    if 1 / 2 < val then (doubleToInt (510 * (1 - val))).map fun g => ⟨255, g, 0⟩
    else (doubleToInt (510 * val)).map fun r => ⟨r, 255, 0⟩

/-- The arguments of the callback and the sizes of `loutput`. -/
structure Frame where
  fontsize : UInt32
  gridsize : UInt32
  depth : UInt32
  x : UInt32
  width : UInt32
  y : UInt32
  height : UInt32

/-- The digits of the displayed value. Of the other types of hwloc 2 machines and packages are 0 and 1, caches 4 to 11. -/
def digits : ObjType → Option Nat
  | .core => some 2
  | .pu => some 1
  | .numaNode => some 6
  | .other type => if type ≤ 1 then some 6 else if 4 ≤ type ∧ type ≤ 11 then some 2 else none

/-- `hmon_get_monitors_by_depth` -/
def hmonGetMonitorsByDepth (L : Registry ℚ M) (depth : Int) (index : Nat) : Option (Harray M) :=
  ((L.topo.objs.filter fun o => o.depth = depth)[index]?).bind L.userdata

/-- The condition that ends the search. -/
def printable (m : Hmonitor Thread ℚ M) : Bool := m.display ≠ 0 ∧ m.display ≤ m.nSamples

/-- The variable `monitor` behind the loop, from its value before. -/
def search (mon : M → Hmonitor Thread ℚ M) : Option (Option M) → List (Option M) → Option (Option M)
  | last, [] => last
  | _, cell :: cells => if cell.any fun m => printable (mon m) then some cell else search mon (some cell) cells

/-- A sample between its extremes, or behind a reset. -/
def InRange (sample max min : ℚ) : Prop :=
  min ≤ sample ∧ sample ≤ max ∨ sample = 0 ∧ max = Double.dblMin ∧ min = Double.dblMax

def Ranged (m : Hmonitor Thread ℚ M) : Prop :=
  ∀ (i : Nat) (s x y : ℚ), m.samples[i]? = some s → m.max[i]? = some x → m.min[i]? = some y → InRange s x y

theorem Ranged.of_same {m m' : Hmonitor Thread ℚ M} (h : Ranged m) (hs : m'.samples = m.samples) (hx : m'.max = m.max)
    (hy : m'.min = m.min) : Ranged m' := by
  unfold Ranged
  rw [hs, hx, hy]
  exact h

theorem Ranged.control {m m' : Hmonitor Thread ℚ M} (h : Ranged m) (hc : OnlyControl m m') : Ranged m' := by
  obtain ⟨stopped, owner, mutex, rfl⟩ := hc
  exact h

theorem ranged_reset (now : Int) (m : Hmonitor Thread ℚ M) : Ranged (hmonitorReset now m) := by
  intro i s x y hs hx hy
  exact Or.inr ⟨List.eq_of_mem_replicate (List.mem_of_getElem? hs), List.eq_of_mem_replicate (List.mem_of_getElem? hx),
    List.eq_of_mem_replicate (List.mem_of_getElem? hy)⟩

theorem ranged_new {self : Thread} {now : Int} {spec : Spec ℚ M} {m : Hmonitor Thread ℚ M}
    (h : newHmonitor self now spec = some m) : Ranged m := by
  unfold newHmonitor at h
  by_cases hw : spec.window = 0
  · rw [if_pos hw] at h
    cases h
  · rw [if_neg hw] at h
    cases h
    exact ranged_reset now _

theorem Ranged.reduce {m : Hmonitor Thread ℚ M} (h : Ranged m) (self : Thread) : Ranged (hmonitorReduce self m).mon := by
  by_cases ho : m.owner = self
  · have hreduced : ∃ samples, (hmonitorReduce self m).mon = { m with
        samples := samples
        max := List.zipWith (fun x s => if s < x then x else s) m.max samples
        min := List.zipWith (fun x s => if x < s then x else s) m.min samples } := by
      unfold hmonitorReduce
      rw [if_pos ho]
      exact ⟨_, rfl⟩
    obtain ⟨samples, hmon⟩ := hreduced
    rw [hmon]
    intro i s x y (hs : samples[i]? = some s) hx hy
    obtain ⟨x₀, s', -, hs', rfl⟩ := List.getElem?_zipWith_eq_some.mp hx
    obtain ⟨y₀, s'', -, hs'', rfl⟩ := List.getElem?_zipWith_eq_some.mp hy
    cases hs'.symm.trans hs
    cases hs''.symm.trans hs
    refine Or.inl ⟨?_, ?_⟩
    · split_ifs with hlt
      · exact hlt.le
      · exact le_rfl
    · split_ifs with hlt
      · exact hlt.le
      · exact le_rfl
  · unfold hmonitorReduce
    rw [if_neg ho]
    exact h

section System
variable [DecidableEq M] {w w' : World ℚ M}

omit [DecidableEq M] in
/-- An operation reduces its monitor, resets it, or leaves its samples and extremes alone. -/
theorem Ranged.effect {self : Thread} {a : Answer ℚ} {mon : M → Hmonitor Thread ℚ M} {op : Op M} {e : Effect ℚ M}
    (h : Ranged (mon op.target)) (he : op.effect self a mon = some e) : Ranged e.mon := by
  have hrow (m : Hmonitor Thread ℚ M) (hm : Ranged m) : Ranged (nextRow a.now m) := hm.of_same rfl rfl rfl
  cases op with
  | start m => cases he; exact h.control (hmonitorStart_onlyControl self a (mon m))
  | stop m => cases he; exact h.control (hmonitorStop_onlyControl self a (mon m))
  | reduce m => cases he; exact h.reduce self
  | reset m => cases he; exact ranged_reset a.now (mon m)
  | release c => cases he; exact h.control (hmonitorRelease_onlyControl self (mon c))
  | unlock c => cases he; exact h.of_same rfl rfl rfl
  | copySamples m base c | copyEvents m base c | addEvents m base c | readDone m => cases he; exact h.of_same rfl rfl rfl
  | blocked c =>
    simp only [Op.effect] at he
    split_ifs at he
    cases he
    exact h.of_same rfl rfl rfl
  | lockChild c =>
    rcases Op.lockChild_cases he with ⟨-, rfl⟩ | ⟨-, -, rfl⟩ | ⟨-, -, rfl⟩ <;> exact h.of_same rfl rfl rfl
  | read m =>
    simp only [Op.effect] at he
    split_ifs at he with ho
    · split at he
      · cases he
        show Ranged (hmonitorRead self a (mon m)).mon
        unfold hmonitorRead
        rw [if_pos ho]
        split_ifs
        · exact hrow _ h
        · exact (hrow _ h).of_same rfl rfl rfl
      · cases he
        exact hrow _ h
      · obtain ⟨ops, -, rfl⟩ := Option.map_eq_some_iff.mp he
        exact hrow _ h
    · cases he
      exact h

/-- Every created monitor is. -/
def AllRanged (w : World ℚ M) : Prop := ∀ m ∈ w.lib.created, Ranged (w.mon m)

theorem AllRanged.put (h : AllRanged w) {m : M} {x : Hmonitor Thread ℚ M} (hx : m ∈ w.lib.created → Ranged x)
    (events : List Event) : AllRanged (w.put m x events) := by
  intro y hy
  have hy : y ∈ w.lib.created := hy
  show Ranged (Function.update w.lib.mon m x y)
  by_cases hym : y = m
  · subst hym
    rw [Function.update_self]
    exact hx hy
  · rw [Function.update_of_ne hym]
    exact h y hy

theorem AllRanged.hmonitorsDo {call : M → Hmonitor Thread ℚ M → Outcome Thread ℚ M}
    (hc : ∀ m x, Ranged x → Ranged (call m x).mon) (ms : List M) (h : AllRanged w) :
    AllRanged (World.hmonitorsDo call ms w) := by
  induction ms generalizing w with
  | nil => exact h
  | cons m ms ih => exact ih (h.put (fun hm => hc m _ (h m hm)) _)

theorem AllRanged.next {l : Label ℚ M} (hp : w.Proper) (h : AllRanged w) (hn : hmonNext w l = some w') :
    AllRanged w' := by
  cases hmonNext_cases hp.sound hn with
  | refused => exact h
  | @create t now m r x hm _ hx =>
    obtain ⟨⟨ev, n⟩, -, hx⟩ := Option.bind_eq_some_iff.mp hx
    intro y hy
    show Ranged (Function.update w.lib.mon m x y)
    by_cases hym : y = m
    · rw [hym, Function.update_self]
      exact ranged_new hx
    · rw [Function.update_of_ne hym]
      exact h y ((List.mem_cons.mp hy).resolve_left hym)
  | @register m display L _ hreg =>
    obtain ⟨d, owner, hmon⟩ := hreg.mon
    intro y hy
    have hy : y ∈ w.lib.created := hreg.created ▸ hy
    show Ranged (L.mon y)
    rw [hmon]
    by_cases hym : y = m
    · rw [hym, Function.update_self]
      exact (h m (hym ▸ hy)).of_same rfl rfl rfl
    · rw [Function.update_of_ne hym]
      exact h y hy
  | restrict => exact h
  | start => exact h.hmonitorsDo (fun _ x hx => hx.control (hmonitorStart_onlyControl _ _ x)) _
  | stop => exact h.hmonitorsDo (fun _ x hx => hx.control (hmonitorStop_onlyControl _ _ x)) _
  | taskset =>
    refine h.hmonitorsDo (fun _ x hx => ?_) _
    unfold World.tasksetStop
    split_ifs
    · exact hx.of_same rfl rfl rfl
    · exact hx
  | call => exact h
  | update => exact h
  | step hs =>
    obtain ⟨op, ops, e, -, he, rfl⟩ := World.step_cases hs
    exact h.put (fun hm => (h _ hm).effect he) e.events

end System

/-! ## The search -/

section Search
variable {mon : M → Hmonitor Thread ℚ M} {last : Option (Option M)} {cells : List (Option M)}

end Search

/-! ## The colour -/

/-- The scaled value is between zero and one, up to the truncation. -/
theorem InRange.scaled {s x y : ℚ} (h : InRange s x y) (hne : x ≠ y) :
    0 ≤ (s - y) / (x - y) ∧ (s - y) / (x - y) < 1 + 1 / 510 := by
  rcases h with ⟨hy, hx⟩ | ⟨rfl, rfl, rfl⟩
  · have hpos : 0 < x - y := sub_pos.mpr (lt_of_le_of_ne (hy.trans hx) hne.symm)
    refine ⟨div_nonneg (sub_nonneg.mpr hy) hpos.le, lt_of_le_of_lt ?_ (by norm_num : (1 : ℚ) < 1 + 1 / 510)⟩
    rw [div_le_one hpos]
    exact sub_le_sub_right hx y
  · -- behind a reset the minimum is `DBL_MAX`, and the maximum is next to nothing beside it
    have hmin : (0 : ℚ) < Double.dblMin ∧ (Double.dblMin : ℚ) ≤ 1 := by decide +kernel
    have hmax : (1000 : ℚ) ≤ Double.dblMax := by decide +kernel
    have hneg : (Double.dblMin : ℚ) - Double.dblMax < 0 := by linarith
    rw [div_lt_iff_of_neg hneg]
    exact ⟨div_nonneg_of_nonpos (by linarith) hneg.le, by linarith⟩

theorem truncate_mono {p q : ℚ} (h : p ≤ q) : truncate p ≤ truncate q := by
  unfold truncate
  split_ifs with hp hq hq
  · exact Int.floor_mono h
  · exact absurd (hp.trans h) hq
  · exact (Int.ceil_nonpos.mpr (not_le.mp hp).le).trans (Int.floor_nonneg.mpr hq)
  · exact Int.ceil_mono h

theorem doubleToInt_mono {p q : ℚ} {i j : Int} (h : p ≤ q) (hi : doubleToInt p = some i) (hj : doubleToInt q = some j) :
    i ≤ j := by
  unfold doubleToInt at hi hj
  split_ifs at hi hj
  rw [← Option.some.inj hi, ← Option.some.inj hj]
  exact truncate_mono h

/-- A larger sample is not less red and not more green. -/
theorem colour_mono {s s' x y : ℚ} (hlt : y < x) (hss : s ≤ s') {c c' : Colour} (h : colour s x y = some c)
    (h' : colour s' x y = some c') : c.r ≤ c'.r ∧ c'.g ≤ c.g := by
  have hval : (s - y) / (x - y) ≤ (s' - y) / (x - y) :=
    div_le_div_of_nonneg_right (sub_le_sub_right hss y) (sub_pos.mpr hlt).le
  have hbound {q : ℚ} {i : Int} (hq : q ≤ 255) (hi : doubleToInt q = some i) : i ≤ 255 :=
    doubleToInt_mono hq hi (by decide +kernel : doubleToInt 255 = some 255)
  unfold colour at h h'
  rw [if_neg hlt.ne'] at h h'
  extract_lets val at h
  extract_lets val' at h'
  split_ifs at h h' with h1 h2 h2
  · obtain ⟨g, hg, rfl⟩ := Option.map_eq_some_iff.mp h
    obtain ⟨g', hg', rfl⟩ := Option.map_eq_some_iff.mp h'
    exact ⟨le_rfl, doubleToInt_mono (by linarith) hg' hg⟩
  · exact absurd (h1.trans_le hval) h2
  · obtain ⟨r, hr, rfl⟩ := Option.map_eq_some_iff.mp h
    obtain ⟨g', hg', rfl⟩ := Option.map_eq_some_iff.mp h'
    exact ⟨hbound (by linarith) hr, hbound (by linarith) hg'⟩
  · obtain ⟨r, hr, rfl⟩ := Option.map_eq_some_iff.mp h
    obtain ⟨r', hr', rfl⟩ := Option.map_eq_some_iff.mp h'
    exact ⟨doubleToInt_mono (by linarith) hr hr', le_rfl⟩

/-! ## What is drawn -/

/-- The first monitor of an object that displays one of its samples. -/
def displayed (L : Registry ℚ M) (obj : Obj) : Option M :=
  (hmonGetMonitorsByDepth L obj.depth obj.logicalIndex).bind fun array => array.toList.find? fun m => printable (L.mon m)

/-- The displayed sample and its extremes. -/
structure Shown (m : Hmonitor Thread ℚ M) (s x y : ℚ) : Prop where
  sample : m.samples[m.display - 1]? = some s
  max : m.max[m.display - 1]? = some x
  min : m.min[m.display - 1]? = some y

section Main
variable [DecidableEq M] {w : World ℚ M} {ok : World ℚ M → Label ℚ M → Prop}

end Main

/-! ## Two samples of a core -/

namespace TwoSamples
open Demo

def sample (value : ℚ) : List (Label ℚ ℕ) :=
  [.call (.core 0) (.read 0), .step (.core 0) ⟨true, [value], 0⟩, .call (.core 0) (.reduce 0), .step (.core 0) ok]

/-- Monitor 0 on core 0, whose sample is displayed, with the values 5 and 9. -/
def run : List (Label ℚ ℕ) :=
  .create .main 0 0 (leaf [1] (Topo.coreObj 0)) :: .register 0 1 :: .start .main (fun _ => ok) :: (sample 5 ++ sample 9)

def world : World ℚ ℕ := (hmonSys.exec Demo.init run).get (by decide +kernel)

def frame : Frame := ⟨10, 7, 100, 0, 64, 0, 24⟩

end TwoSamples

end Hmon.Lstopo
