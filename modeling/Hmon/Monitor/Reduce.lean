import Hmon.Lib.Accesses
import Hmon.Monitor.Window

/-!
# What a reduction reads and writes (`hmonitor_reduce`, `stats.c`)

* `hmonitorEventsMax`, …, `hmonitorEvsetVar` : the shipped reducers, as programs over the arrays of a monitor;
* `Reducer.model` : a reducer as the `model` of a monitor;
* `reduceLog` : the accesses of one `hmonitor_reduce`, whose samples are those of `hmonitorReduce`
  (`hmonitorReduce_run`);
* `reduce_inside_iff` : **the accesses stay inside exactly when the numbers of events and samples compare as the
  reducer needs, and the rows that it scans have no wrapped offset**.
-/

namespace Hmon
open Lib

/-- The further operations on `double` of `stats.c`. -/
class DoubleArith (V : Type) extends Double V, Mul V, Sub V, Div V

instance : DoubleArith ℚ where

/-- The arrays of a monitor, and the local ones of `hmonitor_events_var`. -/
inductive Buf
  | events
  | samples
  | max
  | min
  | sum
  | squareSum
  deriving DecidableEq, Repr

/-- The numbers of a monitor that a reducer reads. -/
structure Sizes where
  nEvents : Nat
  nSamples : Nat
  window : Nat
  last : Nat
  total : Nat

/-- The offset of row `i` (`hmonitor_get_events`). -/
def Sizes.getEvents (d : Sizes) (i : Nat) : Nat := u32 (i * u32 (d.nEvents + 1))

/-- `STAT_MIN(m->window, m->total)`. -/
def Sizes.rows (d : Sizes) : Nat := if d.window < d.total then d.window else d.total

/-! ## The reducers -/

section Reducers
variable {V : Type}

/-- The loops of `hmonitor_events_max`, `_min` and `_sum`: each column folded from `x` by `f`. -/
def foldRows [Zero V] (x : V) (f : V → V → V) (d : Sizes) : Prog Buf V Unit := do
  forRange d.nEvents () fun c _ => store .samples c x
  forRange d.rows () fun r _ =>
    forRange d.nEvents () fun c _ => do
      let out ← load .samples c
      let v ← load .events (d.getEvents r + c)
      store .samples c (f out v)

variable [DoubleArith V]

def hmonitorEventsMax : Sizes → Prog Buf V Unit :=
  foldRows Double.dblMin fun a b => if b < a then a else b

def hmonitorEventsMin : Sizes → Prog Buf V Unit :=
  foldRows Double.dblMax fun a b => if a < b then a else b

def hmonitorEventsSum : Sizes → Prog Buf V Unit := foldRows 0 fun a b => a + b

def hmonitorEventsMean (d : Sizes) : Prog Buf V Unit := do
  hmonitorEventsSum d
  forRange d.nEvents () fun c _ => do
    let out ← load .samples c
    store .samples c (out / Double.ofLong d.rows)

def hmonitorEventsVar (d : Sizes) : Prog Buf V Unit := do
  let ct : V := Double.ofLong 1 / (Double.ofLong d.rows * Double.ofLong d.rows)
  forRange d.nEvents () fun c _ => do
    store .squareSum c 0
    store .sum c 0
  forRange d.rows () fun r _ =>
    forRange d.nEvents () fun c _ => do
      let v ← load .events (d.getEvents r + c)
      let s ← load .sum c
      store .sum c (s + v)
      let q ← load .squareSum c
      store .squareSum c (q + v * v)
  forRange d.nEvents () fun c _ => do
    let s ← load .sum c
    store .sum c (ct * s * s)
  let ct : V := Double.ofLong 1 / Double.ofLong d.rows
  -- the bound of this loop is `n_samples`, that of the local arrays `n_events`
  forRange d.nSamples () fun c _ => do
    let q ← load .squareSum c
    let s ← load .sum c
    store .samples c (ct * q - s)

def hmonitorEvsetVar (d : Sizes) : Prog Buf V Unit := do
  let (sum, squareSum) ← forRange d.nEvents ((0, 0) : V × V) fun c (sum, squareSum) => do
    let v ← load .events (d.getEvents d.last + c)
    pure (sum + v, squareSum + v * v)
  store .samples 0 (squareSum / Double.ofLong d.nEvents -
    Double.ofLong 1 / Double.ofLong (u32 (d.nEvents * d.nEvents)) * sum * sum)

/-- The shipped reducers. -/
inductive Reducer
  | max
  | min
  | sum
  | mean
  | var
  | evsetVar
  deriving DecidableEq, Repr

def Reducer.prog : Reducer → Sizes → Prog Buf V Unit
  | .max => hmonitorEventsMax
  | .min => hmonitorEventsMin
  | .sum => hmonitorEventsSum
  | .mean => hmonitorEventsMean
  | .var => hmonitorEventsVar
  | .evsetVar => hmonitorEvsetVar

end Reducers

/-! ## One call of `hmonitor_reduce` -/

section Call
variable {T V M : Type} [DoubleArith V]

/-- The arrays that a reducer sees; its local ones have one cell for each event. -/
def reducerArrays (nEvents : Nat) (events samples : List V) : Arrays Buf V where
  cells
    | .events => events
    | .samples => samples
    | .sum | .squareSum => List.replicate nEvents 0
    | .max | .min => []
  log := []

/-- A reducer as the function that a monitor points to. -/
def Reducer.model (f : Reducer) : Model V := fun nEvents window last total events samples =>
  (f.prog ⟨nEvents, samples.length, window, last, total⟩ (reducerArrays nEvents events samples)).2.cells .samples

def Hmonitor.sizes (m : Hmonitor T V M) : Sizes := ⟨m.nEvents, m.nSamples, m.window, m.last, m.total⟩

/-- `m->model(m)`, or without a model the copy of the last row. -/
def reduceModel (f : Option Reducer) (d : Sizes) : Prog Buf V Unit :=
  match f with
  | some f => f.prog d
  | none => memcpy .samples .events (d.getEvents d.last) d.nSamples

/-- The last loop of `hmonitor_reduce`: the extreme values of each sample. -/
def reduceExtremes (d : Sizes) : Prog Buf V Unit :=
  forRange d.nSamples () fun i _ => do
    let x ← load .max i
    let s ← load .samples i
    store .max i (if s < x then x else s)
    let x ← load .min i
    let s ← load .samples i
    store .min i (if x < s then x else s)

/-- The arrays of the last loop; those of the reducer are out of scope. -/
def outputArrays (samples max min : List V) (log : List (Access Buf)) : Arrays Buf V where
  cells
    | .samples => samples
    | .max => max
    | .min => min
    | .events | .sum | .squareSum => []
  log := log

/-- The arrays after `hmonitor_reduce` by the owner of a monitor whose model is `f`. -/
def reduceRun (f : Option Reducer) (m : Hmonitor T V M) : Arrays Buf V :=
  let s := (reduceModel f m.sizes (reducerArrays m.nEvents m.events m.samples)).2
  (reduceExtremes m.sizes (outputArrays (s.cells .samples) m.max m.min s.log)).2

/-- The accesses of one call of `hmonitor_reduce` by the thread `self`. -/
def reduceLog [DecidableEq T] (self : T) (f : Option Reducer) (m : Hmonitor T V M) : List (Access Buf) :=
  if m.owner = self then (reduceRun f m).log else []

end Call

/-! ## The accesses of each reducer -/

section Logs
variable {V : Type} [DoubleArith V]

def scanLog (d : Sizes) (as : Nat → Nat → List (Access Buf)) : List (Access Buf) :=
  (List.range d.rows).flatMap fun r => (List.range d.nEvents).flatMap (as r)

def foldRowsLog (d : Sizes) : List (Access Buf) :=
  (List.range d.nEvents).flatMap (fun c => [⟨.samples, c, true⟩]) ++
    scanLog d fun r c => [⟨.samples, c, false⟩, ⟨.events, d.getEvents r + c, false⟩, ⟨.samples, c, true⟩]

def meanLog (d : Sizes) : List (Access Buf) :=
  foldRowsLog d ++ (List.range d.nEvents).flatMap fun c => [⟨.samples, c, false⟩, ⟨.samples, c, true⟩]

def varLog (d : Sizes) : List (Access Buf) :=
  (List.range d.nEvents).flatMap (fun c => [⟨.squareSum, c, true⟩, ⟨.sum, c, true⟩]) ++
    (scanLog d (fun r c => [⟨.events, d.getEvents r + c, false⟩, ⟨.sum, c, false⟩, ⟨.sum, c, true⟩,
      ⟨.squareSum, c, false⟩, ⟨.squareSum, c, true⟩]) ++
    ((List.range d.nEvents).flatMap (fun c => [⟨.sum, c, false⟩, ⟨.sum, c, true⟩]) ++
    (List.range d.nSamples).flatMap fun c => [⟨.squareSum, c, false⟩, ⟨.sum, c, false⟩, ⟨.samples, c, true⟩]))

def evsetVarLog (d : Sizes) : List (Access Buf) :=
  (List.range d.nEvents).flatMap (fun c => [⟨.events, d.getEvents d.last + c, false⟩]) ++ [⟨.samples, 0, true⟩]

/-- The copy of the last row. -/
def copyLog (d : Sizes) : List (Access Buf) :=
  (List.range d.nSamples).flatMap fun c => [⟨.events, d.getEvents d.last + c, false⟩, ⟨.samples, c, true⟩]

def extremesLog (d : Sizes) : List (Access Buf) :=
  (List.range d.nSamples).flatMap fun i => [⟨.max, i, false⟩, ⟨.samples, i, false⟩, ⟨.max, i, true⟩,
    ⟨.min, i, false⟩, ⟨.samples, i, false⟩, ⟨.min, i, true⟩]

def Reducer.accesses : Reducer → Sizes → List (Access Buf)
  | .max => foldRowsLog
  | .min => foldRowsLog
  | .sum => foldRowsLog
  | .mean => meanLog
  | .var => varLog
  | .evsetVar => evsetVarLog

theorem logs_foldRows (x : V) (f : V → V → V) (d : Sizes) : Logs (foldRows x f d) (foldRowsLog d) := by
  refine (Logs.forRange fun c _ => Logs.store _ c x).bind fun _ => ?_
  refine Logs.forRange fun r _ => Logs.forRange fun c _ => ?_
  exact (Logs.load _ c).bind fun _ => (Logs.load _ _).bind fun _ => Logs.store _ c _

theorem logs_mean (d : Sizes) : Logs (hmonitorEventsMean d : Prog Buf V Unit) (meanLog d) := by
  refine (logs_foldRows 0 _ d).bind fun _ => Logs.forRange fun c _ => ?_
  exact (Logs.load _ c).bind fun _ => Logs.store _ c _

theorem logs_var (d : Sizes) : Logs (hmonitorEventsVar d : Prog Buf V Unit) (varLog d) := by
  refine (Logs.forRange fun c _ => (Logs.store _ c 0).bind fun _ => Logs.store _ c 0).bind fun _ => ?_
  refine (Logs.forRange fun r _ => Logs.forRange fun c _ => ?_).bind fun _ => ?_
  · exact (Logs.load _ _).bind fun _ => (Logs.load _ c).bind fun _ => (Logs.store _ c _).bind fun _ =>
      (Logs.load _ c).bind fun _ => Logs.store _ c _
  refine (Logs.forRange fun c _ => (Logs.load _ c).bind fun _ => Logs.store _ c _).bind fun _ => ?_
  refine Logs.forRange fun c _ => ?_
  exact (Logs.load _ c).bind fun _ => (Logs.load _ c).bind fun _ => Logs.store _ c _

theorem logs_evsetVar (d : Sizes) : Logs (hmonitorEvsetVar d : Prog Buf V Unit) (evsetVarLog d) := by
  refine Logs.bind (Logs.forRange fun c _ => ?_) fun _ => Logs.store _ 0 _
  exact (Logs.load _ _).bind fun _ => Logs.pure _

theorem Reducer.logs (f : Reducer) (d : Sizes) : Logs (f.prog d : Prog Buf V Unit) (f.accesses d) := by
  cases f with
  | max => exact logs_foldRows _ _ d
  | min => exact logs_foldRows _ _ d
  | sum => exact logs_foldRows _ _ d
  | mean => exact logs_mean d
  | var => exact logs_var d
  | evsetVar => exact logs_evsetVar d

theorem logs_reduceModel (f : Option Reducer) (d : Sizes) :
    Logs (reduceModel f d : Prog Buf V Unit) (f.elim (copyLog d) fun f => f.accesses d) := by
  cases f with
  | some f => exact f.logs d
  | none => exact Logs.memcpy _ _ _ _

theorem logs_reduceExtremes (d : Sizes) : Logs (reduceExtremes d : Prog Buf V Unit) (extremesLog d) := by
  refine Logs.forRange fun i _ => ?_
  exact (Logs.load _ i).bind fun _ => (Logs.load _ i).bind fun _ => (Logs.store _ i _).bind fun _ =>
    (Logs.load _ i).bind fun _ => (Logs.load _ i).bind fun _ => Logs.store _ i _

theorem reduceRun_log {T M : Type} (f : Option Reducer) (m : Hmonitor T V M) :
    (reduceRun f m).log = f.elim (copyLog m.sizes) (fun f => f.accesses m.sizes) ++ extremesLog m.sizes := by
  unfold reduceRun
  simp only [(logs_reduceExtremes m.sizes).log, (logs_reduceModel f m.sizes).log, outputArrays]
  rfl

end Logs

/-! ## The values of the run are those of `hmonitorReduce` -/

section Values
variable {T V M : Type} [DoubleArith V] [DecidableEq T]

/-- The last loop computes the extremes cell by cell. -/
theorem reduceExtremes_cells {d : Sizes} {samples max min : List V} {log : List (Access Buf)}
    (hs : samples.length = d.nSamples) (hx : max.length = d.nSamples) (hn : min.length = d.nSamples) :
    let t := (reduceExtremes d (outputArrays samples max min log)).2
    t.cells .samples = samples ∧ t.cells .max = List.zipWith (fun x s => if s < x then x else s) max samples ∧
      t.cells .min = List.zipWith (fun x s => if x < s then x else s) min samples := by
  intro t
  have hinv : t.cells .samples = samples ∧
      t.cells .max = (List.zipWith (fun x s => if s < x then x else s) max samples).take d.nSamples ++
        max.drop d.nSamples ∧
      t.cells .min = (List.zipWith (fun x s => if x < s then x else s) min samples).take d.nSamples ++
        min.drop d.nSamples := by
    refine forRange_inv (I := fun i (t : Arrays Buf V) => t.cells .samples = samples ∧
      t.cells .max = (List.zipWith (fun x s => if s < x then x else s) max samples).take i ++ max.drop i ∧
      t.cells .min = (List.zipWith (fun x s => if x < s then x else s) min samples).take i ++ min.drop i)
      ⟨rfl, rfl, rfl⟩ ?_
    rintro i hi - t ⟨h1, h2, h3⟩
    have front : ∀ (g : V → V → V) (xs l : List V), xs.length = d.nSamples →
        l = (List.zipWith g xs samples).take i ++ xs.drop i →
        l.set i (g (l.getD i 0) (samples.getD i 0)) =
          (List.zipWith g xs samples).take (i + 1) ++ xs.drop (i + 1) := by
      intro g xs l hxs hl
      have hi' : i < xs.length := by omega
      have hlen : ((List.zipWith g xs samples).take i).length = i := by
        rw [List.length_take, List.length_zipWith]
        omega
      have hget : l.getD i 0 = xs[i] := by
        rw [hl, List.getD_eq_getElem?_getD, List.getElem?_append_right (by omega), hlen, Nat.sub_self,
          List.getElem?_drop, Nat.add_zero, List.getElem?_eq_getElem hi', Option.getD_some]
      have hsample : samples.getD i 0 = samples[i] := by
        rw [List.getD_eq_getElem?_getD, List.getElem?_eq_getElem (by omega), Option.getD_some]
      rw [hget, hsample, hl]
      refine set_front ?_ hi'
      rw [List.getElem?_zipWith, List.getElem?_eq_getElem hi', List.getElem?_eq_getElem (by omega)]
    refine ⟨h1, ?_, ?_⟩
    · rw [← front _ max (t.cells .max) hx h2, ← h1]
      rfl
    · rw [← front _ min (t.cells .min) hn h3, ← h1]
      rfl
  obtain ⟨h1, h2, h3⟩ := hinv
  refine ⟨h1, ?_, ?_⟩
  · rw [h2, List.take_of_length_le (by simp [hs, hx]), List.drop_of_length_le hx.le, List.append_nil]
  · rw [h3, List.take_of_length_le (by simp [hs, hn]), List.drop_of_length_le hn.le, List.append_nil]

theorem hmonitorReduce_samples {self : T} {f : Option Reducer} {m : Hmonitor T V M} (ho : m.owner = self)
    (hm : m.model = f.map Reducer.model) (hs : m.samples.length = m.nSamples)
    (hfit : f = none → m.sizes.getEvents m.last + m.nSamples ≤ m.events.length) :
    (hmonitorReduce self m).mon.samples =
      (reduceModel f m.sizes (reducerArrays m.nEvents m.events m.samples)).2.cells .samples := by
  unfold hmonitorReduce
  rw [if_pos ho]
  cases f with
  | some f =>
    simp only [hm, Option.map_some]
    show (f.prog ⟨m.nEvents, m.samples.length, m.window, m.last, m.total⟩ _).2.cells .samples = _
    rw [hs]
    rfl
  | none =>
    simp only [hm, Option.map_none]
    have hne : Buf.samples ≠ Buf.events := by simp
    have hcopy : (memcpy Buf.samples Buf.events (m.sizes.getEvents m.last) m.nSamples
        (reducerArrays m.nEvents m.events m.samples)).2.cells .samples =
          (m.events.drop (m.sizes.getEvents m.last)).take m.nSamples ++ m.samples.drop m.nSamples :=
      memcpy_cells hne (hfit rfl) hs.ge
    exact hcopy.symm

theorem hmonitorReduce_extremes {self : T} {m : Hmonitor T V M} (ho : m.owner = self) :
    let o := (hmonitorReduce self m).mon
    o.max = List.zipWith (fun x s => if s < x then x else s) m.max o.samples ∧
      o.min = List.zipWith (fun x s => if x < s then x else s) m.min o.samples := by
  unfold hmonitorReduce
  rw [if_pos ho]
  exact ⟨rfl, rfl⟩

/-- One call of `hmonitor_reduce` leaves the samples and extremes that the run of its accesses leaves. -/
theorem hmonitorReduce_run {self : T} {f : Option Reducer} {m : Hmonitor T V M} (ho : m.owner = self)
    (hm : m.model = f.map Reducer.model) (hs : m.samples.length = m.nSamples) (hx : m.max.length = m.nSamples)
    (hn : m.min.length = m.nSamples) (hfit : f = none → m.sizes.getEvents m.last + m.nSamples ≤ m.events.length) :
    let o := (hmonitorReduce self m).mon
    o.samples = (reduceRun f m).cells .samples ∧ o.max = (reduceRun f m).cells .max ∧
      o.min = (reduceRun f m).cells .min := by
  have hlen := (logs_reduceModel f m.sizes).length (reducerArrays m.nEvents m.events m.samples) .samples
  have hsamples := hmonitorReduce_samples ho hm hs hfit
  obtain ⟨hmax, hmin⟩ := hmonitorReduce_extremes ho
  obtain ⟨h1, h2, h3⟩ := @reduceExtremes_cells _ _ m.sizes _ _ _
    (reduceModel f m.sizes (reducerArrays m.nEvents m.events m.samples)).2.log (hlen.trans hs) hx hn
  unfold reduceRun
  refine ⟨hsamples.trans h1.symm, hmax.trans ?_, hmin.trans ?_⟩
  · rw [hsamples]
    exact h2.symm
  · rw [hsamples]
    exact h3.symm

end Values

/-! ## Staying inside -/

section Inside
variable {T V M : Type}

/-- An access that the reduction of `m` may make: an event column of a row, a sample with its extremes, a local cell. -/
def Hmonitor.Inside (m : Hmonitor T V M) (a : Access Buf) : Prop :=
  match a.array with
  | .events => a.isWrite = false ∧ a.index < m.events.length ∧
      ∃ r < m.window, ∃ c < m.nEvents, a.index = r * (m.nEvents + 1) + c
  | .samples | .max | .min => a.index < m.nSamples
  | .sum | .squareSum => a.index < m.nEvents

/-- One call of `hmonitor_reduce` by the thread `self` only makes such accesses. -/
def Hmonitor.StaysInside [DecidableEq T] [DoubleArith V] (self : T) (f : Option Reducer) (m : Hmonitor T V M) : Prop :=
  ∀ a ∈ reduceLog self f m, m.Inside a

/-- From the offset of row `i` on, `k` cells are event columns of one row inside the buffer. -/
def Hmonitor.RowInside (m : Hmonitor T V M) (i k : Nat) : Prop :=
  k = 0 ∨ m.sizes.getEvents i % (m.nEvents + 1) + k ≤ m.nEvents ∧ m.sizes.getEvents i + k ≤ m.events.length

/-- What the model `f` of `m` needs of the numbers of its events and samples and of the rows that it reads. -/
def Hmonitor.ReduceFits (m : Hmonitor T V M) : Option Reducer → Prop
  | none => m.RowInside m.last m.nSamples
  | some .var => m.nSamples ≤ m.nEvents ∧ ∀ r < m.sizes.rows, m.RowInside r m.nEvents
  | some .evsetVar => 0 < m.nSamples ∧ m.RowInside m.last m.nEvents
  | some _ => m.nEvents ≤ m.nSamples ∧ ∀ r < m.sizes.rows, m.RowInside r m.nEvents

theorem rowInside_iff {m : Hmonitor T V M} (hlen : m.events.length ≤ m.window * (m.nEvents + 1)) (i k : Nat) :
    (∀ c < k, m.Inside ⟨.events, m.sizes.getEvents i + c, false⟩) ↔ m.RowInside i k := by
  generalize ho : m.sizes.getEvents i = o
  have hdm := Nat.div_add_mod' o (m.nEvents + 1)
  have hmod : o % (m.nEvents + 1) < m.nEvents + 1 := Nat.mod_lt _ (Nat.succ_pos _)
  unfold Hmonitor.RowInside
  rw [ho]
  constructor
  · intro h
    rcases Nat.eq_zero_or_pos k with hk | hk
    · exact Or.inl hk
    refine Or.inr ⟨?_, ?_⟩
    · -- otherwise the run reaches the timestamp of its row
      by_contra hcol
      obtain ⟨-, -, r, -, c, hc, he⟩ := h (m.nEvents - o % (m.nEvents + 1)) (by omega)
      have he : o + (m.nEvents - o % (m.nEvents + 1)) = r * (m.nEvents + 1) + c := he
      have hstamp : (o + (m.nEvents - o % (m.nEvents + 1))) % (m.nEvents + 1) = m.nEvents := by
        rw [show o + (m.nEvents - o % (m.nEvents + 1)) = m.nEvents + o / (m.nEvents + 1) * (m.nEvents + 1) by omega,
          Nat.add_mul_mod_self_right]
        exact Nat.mod_eq_of_lt (Nat.lt_succ_self _)
      rw [he, Nat.add_comm, Nat.add_mul_mod_self_right, Nat.mod_eq_of_lt (by omega)] at hstamp
      omega
    · obtain ⟨-, hlast, -⟩ := h (k - 1) (by omega)
      have hlast : o + (k - 1) < m.events.length := hlast
      omega
  · rintro (rfl | ⟨hcol, hend⟩) c hc
    · exact absurd hc (Nat.not_lt_zero c)
    · refine ⟨rfl, show o + c < _ by omega, o / (m.nEvents + 1), ?_, o % (m.nEvents + 1) + c, by omega, ?_⟩
      · exact (Nat.div_lt_iff_lt_mul (Nat.succ_pos _)).mpr ((show o < m.events.length by omega).trans_le hlen)
      · show o + c = _
        omega

theorem forall_lt_iff {n k : Nat} : (∀ c < n, c < k) ↔ n ≤ k :=
  ⟨fun h => Nat.le_of_not_lt fun hk => Nat.lt_irrefl k (h k hk), fun h _ hc => hc.trans_le h⟩

theorem forall_mem_flatMap_range {A : Type} {P : A → Prop} {n : Nat} {as : Nat → List A} :
    (∀ a ∈ (List.range n).flatMap as, P a) ↔ ∀ c < n, ∀ a ∈ as c, P a := by
  simp only [List.mem_flatMap, List.mem_range]
  exact ⟨fun h c hc a ha => h a ⟨c, hc, ha⟩, fun h a ⟨c, hc, ha⟩ => h c hc a ha⟩

section Logged
variable {m : Hmonitor T V M} (hlen : m.events.length ≤ m.window * (m.nEvents + 1))
include hlen

theorem foldRows_inside_iff : (∀ a ∈ foldRowsLog m.sizes, m.Inside a) ↔
    m.nEvents ≤ m.nSamples ∧ ∀ r < m.sizes.rows, m.RowInside r m.nEvents := by
  simp only [foldRowsLog, scanLog, List.forall_mem_append, forall_mem_flatMap_range, List.forall_mem_cons]
  rw [← forall_lt_iff]
  constructor
  · rintro ⟨hn, hr⟩
    exact ⟨fun c hc => (hn c hc).1, fun r hr' => (rowInside_iff hlen r _).mp fun c hc => (hr r hr' c hc).2.1⟩
  · rintro ⟨hn, hr⟩
    refine ⟨fun c hc => ⟨hn c hc, by simp⟩, fun r hr' c hc => ⟨hn c hc, ?_, hn c hc, by simp⟩⟩
    exact (rowInside_iff hlen r _).mpr (hr r hr') c hc

theorem mean_inside_iff : (∀ a ∈ meanLog m.sizes, m.Inside a) ↔
    m.nEvents ≤ m.nSamples ∧ ∀ r < m.sizes.rows, m.RowInside r m.nEvents := by
  simp only [meanLog, List.forall_mem_append, forall_mem_flatMap_range, foldRows_inside_iff hlen, List.forall_mem_cons]
  refine and_iff_left_of_imp fun h c hc => ?_
  have hin : c < m.nSamples := Nat.lt_of_lt_of_le hc h.1
  exact ⟨hin, hin, by simp⟩

theorem var_inside_iff : (∀ a ∈ varLog m.sizes, m.Inside a) ↔
    m.nSamples ≤ m.nEvents ∧ ∀ r < m.sizes.rows, m.RowInside r m.nEvents := by
  simp only [varLog, scanLog, List.forall_mem_append, forall_mem_flatMap_range, List.forall_mem_cons]
  rw [← forall_lt_iff]
  constructor
  · rintro ⟨-, hr, -, hk⟩
    exact ⟨fun c hc => (hk c hc).1, fun r hr' => (rowInside_iff hlen r _).mp fun c hc => (hr r hr' c hc).1⟩
  · rintro ⟨hk, hr⟩
    refine ⟨fun c hc => ⟨hc, hc, by simp⟩, fun r hr' c hc => ⟨?_, hc, hc, hc, hc, by simp⟩,
      fun c hc => ⟨hc, hc, by simp⟩, fun c hc => ⟨hk c hc, hk c hc, hc, by simp⟩⟩
    exact (rowInside_iff hlen r _).mpr (hr r hr') c hc

theorem evsetVar_inside_iff : (∀ a ∈ evsetVarLog m.sizes, m.Inside a) ↔
    0 < m.nSamples ∧ m.RowInside m.last m.nEvents := by
  simp only [evsetVarLog, List.forall_mem_append, forall_mem_flatMap_range, List.forall_mem_singleton]
  rw [and_comm]
  exact and_congr Iff.rfl (rowInside_iff hlen m.last _)

theorem copy_inside_iff : (∀ a ∈ copyLog m.sizes, m.Inside a) ↔ m.RowInside m.last m.nSamples := by
  simp only [copyLog, forall_mem_flatMap_range, List.forall_mem_cons]
  rw [← rowInside_iff hlen]
  exact ⟨fun h c hc => (h c hc).1, fun h c hc => ⟨h c hc, hc, by simp⟩⟩

omit hlen in
theorem extremes_inside (m : Hmonitor T V M) : ∀ a ∈ extremesLog m.sizes, m.Inside a := by
  simp only [extremesLog, forall_mem_flatMap_range, List.forall_mem_cons]
  exact fun i hi => ⟨hi, hi, hi, hi, hi, hi, by simp⟩

/-- One reduction by the owner. -/
theorem reduceRun_inside_iff [DoubleArith V] (f : Option Reducer) :
    (∀ a ∈ (reduceRun f m).log, m.Inside a) ↔ m.ReduceFits f := by
  rw [reduceRun_log, List.forall_mem_append, and_iff_left (extremes_inside m)]
  cases f with
  | none => exact copy_inside_iff hlen
  | some f =>
    cases f with
    | max => exact foldRows_inside_iff hlen
    | min => exact foldRows_inside_iff hlen
    | sum => exact foldRows_inside_iff hlen
    | mean => exact mean_inside_iff hlen
    | var => exact var_inside_iff hlen
    | evsetVar => exact evsetVar_inside_iff hlen

end Logged

/-- The same monitor with any other window content, counters and owner. -/
structure SameBuffers (m₀ m : Hmonitor T V M) : Prop where
  nEvents : m.nEvents = m₀.nEvents
  nSamples : m.nSamples = m₀.nSamples
  window : m.window = m₀.window
  events : m.events.length = m₀.events.length
  model : m.model = m₀.model

theorem Allocated.le {m : Hmonitor T V M} (h : Allocated m) : m.events.length ≤ m.window * (m.nEvents + 1) := by
  rw [h]
  exact (Nat.mod_le _ _).trans (Nat.mul_le_mul_left _ (Nat.mod_le _ _))

/-- The numbers of events and samples alone, for rows that the buffer holds. -/
def Hmonitor.SizesFit (m : Hmonitor T V M) : Option Reducer → Prop
  | none => m.nSamples ≤ m.nEvents
  | some .var => m.nSamples ≤ m.nEvents
  | some .evsetVar => 0 < m.nSamples
  | some _ => m.nEvents ≤ m.nSamples

/-- In a window whose cells fit an `unsigned`, only the numbers of events and samples matter. -/
theorem reduceFits_iff_sizesFit {m : Hmonitor T V M} (ha : Allocated m) (hf : m.window * (m.nEvents + 1) < 2 ^ 32)
    (hl : m.last < m.window) (f : Option Reducer) : m.ReduceFits f ↔ m.SizesFit f := by
  have row : ∀ i < m.window, ∀ k, m.RowInside i k ↔ k ≤ m.nEvents := by
    intro i hi k
    have hstart : m.sizes.getEvents i = i * (m.nEvents + 1) := offset_eq hf hi (Nat.zero_le _)
    have hlen : m.events.length = m.window * (m.nEvents + 1) := by
      have hn : u32 (m.nEvents + 1) = m.nEvents + 1 :=
        Nat.mod_eq_of_lt ((Nat.le_mul_of_pos_left _ (Nat.zero_lt_of_lt hi)).trans_lt hf)
      rw [ha, hn]
      exact Nat.mod_eq_of_lt hf
    have hrow : (i + 1) * (m.nEvents + 1) ≤ m.window * (m.nEvents + 1) := Nat.mul_le_mul_right _ hi
    rw [Nat.succ_mul] at hrow
    unfold Hmonitor.RowInside
    rw [hstart, hlen, Nat.mul_mod_left]
    omega
  have rows : (∀ r < m.sizes.rows, m.RowInside r m.nEvents) := by
    intro r hr
    refine (row r (Nat.lt_of_lt_of_le hr ?_) _).mpr le_rfl
    unfold Sizes.rows
    split_ifs with h
    · exact le_rfl
    · exact not_lt.mp h
  cases f with
  | none => exact row _ hl _
  | some f =>
    cases f with
    | max | min | sum | mean | var => exact and_iff_left rows
    | evsetVar => exact and_iff_left ((row _ hl _).mpr le_rfl)

instance (m : Hmonitor T V M) (i k : Nat) : Decidable (m.RowInside i k) := inferInstanceAs (Decidable (_ ∨ _))

theorem newHmonitor_model [DoubleArith V] {self : T} {now : Int} {s : Spec V M} {m : Hmonitor T V M}
    (h : newHmonitor self now s = some m) : m.model = s.plugin.join := by
  unfold newHmonitor at h
  by_cases hw : s.window = 0
  · rw [if_pos hw] at h
    cases h
  · rw [if_neg hw, Option.some.injEq] at h
    subst h
    rfl

/-- **One `hmonitor_reduce` of a monitor that `new_hmonitor` returned, whatever its window holds, stays inside the
buffers exactly when the sizes and the rows that it reads fit its model.** -/
theorem reduce_inside_iff [DecidableEq T] [DoubleArith V] {self t : T} {now : Int} {s : Spec V M}
    {m₀ m : Hmonitor T V M} {f : Option Reducer} (hf : s.plugin.join = f.map Reducer.model)
    (hnew : newHmonitor self now s = some m₀) (hm : SameBuffers m₀ m) :
    m.model = f.map Reducer.model ∧
      (m.StaysInside t f ↔ (m.owner = t → m.ReduceFits f)) := by
  obtain ⟨ha, -⟩ := newHmonitor_allocated hnew
  have hlen : m.events.length ≤ m.window * (m.nEvents + 1) := by
    rw [hm.events, hm.window, hm.nEvents]
    exact ha.le
  refine ⟨(hm.model.trans (newHmonitor_model hnew)).trans hf, ?_⟩
  unfold Hmonitor.StaysInside reduceLog
  split_ifs with ho
  · rw [reduceRun_inside_iff hlen]
    exact ⟨fun h _ => h, fun h => h ho⟩
  · exact ⟨fun _ h => absurd h ho, fun _ _ h => absurd h List.not_mem_nil⟩

/-- The request for one event reduced to `nSamples` samples by the plugin function `plugin`. -/
def reduceSpec (plugin : Option (Model ℚ)) (nSamples : Nat) : Spec ℚ ℕ :=
  { fakeSpec [] ⟨.core, 1, 0, {0}⟩ fun _ => 0 with plugin := some plugin, nSamples := nSamples }

def reduceMonitor (plugin : Option (Model ℚ)) (nSamples : Nat) : Hmonitor ℕ ℚ ℕ :=
  (newHmonitor 0 0 (reduceSpec plugin nSamples)).get rfl

/-- One sample is the maximum of one event, read once. -/
def reduceRead : Hmonitor ℕ ℚ ℕ :=
  { reduceMonitor (some Reducer.max.model) 1 with events := [5, 1], last := 0, total := 1 }

theorem reduce_inside_max : reduceRead.StaysInside 0 (some .max) := by
  have hnew : newHmonitor 0 0 (reduceSpec (some Reducer.max.model) 1) =
      some (reduceMonitor (some Reducer.max.model) 1) := (Option.some_get _).symm
  have hsame : SameBuffers (reduceMonitor (some Reducer.max.model) 1) reduceRead := ⟨rfl, rfl, rfl, rfl, rfl⟩
  have hrows : ∀ r < reduceRead.sizes.rows, reduceRead.RowInside r reduceRead.nEvents := by decide
  exact (reduce_inside_iff rfl hnew hsame).2.mpr fun _ => ⟨le_rfl, hrows⟩

/-- `3#f` with an unknown `f` and one event: the copy of the last row goes on into its timestamp and past it. -/
theorem reduce_reads_past : newHmonitor 0 0 (reduceSpec none 3) = some (reduceMonitor none 3) ∧
    ¬ (reduceMonitor none 3).StaysInside 0 none := by
  refine ⟨(Option.some_get _).symm, fun h => ?_⟩
  have hrow : (reduceMonitor none 3).RowInside 0 3 := (reduceRun_inside_iff (by decide) none).mp h
  exact absurd hrow (by decide)

end Inside

end Hmon
