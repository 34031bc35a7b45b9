import Hmon.Monitor.Reduce

/-!
# What the reducers compute (`stats.c`)

The samples that a reducer leaves, column by column, from the cells of the rows that it scans.

* `Sizes.value` : the cell that a reducer reads in a row and a column; `overRows` : a fold of a column;
* `foldRows_sample`, `mean_sample`, `var_sample` : the sample of each column;
* `reduceWith` : one reduction of a monitor whose model is a given reducer.
-/

namespace Hmon
open Lib

variable {V : Type} [DoubleArith V]

/-- The value that a reducer reads in the column `c` of the row `r`. -/
def Sizes.value (d : Sizes) (events : List V) (r c : Nat) : V := events.getD (d.getEvents r + c) 0

/-- The column `c` of the first `k` rows, folded from `x`. -/
def overRows (d : Sizes) (events : List V) (x : V) (f : V → V → V) (c k : Nat) : V :=
  (List.range k).foldl (fun acc r => f acc (d.value events r c)) x

theorem overRows_succ (d : Sizes) (events : List V) (x : V) (f : V → V → V) (c k : Nat) :
    overRows d events x f c (k + 1) = f (overRows d events x f c k) (d.value events k c) := by
  unfold overRows
  rw [List.range_succ, List.foldl_append]
  rfl

/-! ## One sample for each column -/

/-- The events are `events`, there are `n` samples, and that of column `c`, if there is one, is `v`. -/
structure HasSample (events : List V) (n c : Nat) (v : V) (s : Arrays Buf V) : Prop where
  events : s.cells .events = events
  length : (s.cells .samples).length = n
  sample : c < n → (s.cells .samples)[c]? = some v

section Steps
variable {events : List V} {n c i : Nat} {v w : V} {s : Arrays Buf V}

omit [DoubleArith V] in
theorem HasSample.store_self (he : s.cells .events = events) (hn : (s.cells .samples).length = n)
    (hw : c < n → w = v) : HasSample events n c v (store .samples c w s).2 := by
  refine ⟨(store_cells_ne (by decide)).trans he, (store_length _ _).trans hn, fun hc => ?_⟩
  rw [store_get_self (hn ▸ hc), hw hc]

omit [DoubleArith V] in
theorem HasSample.store_ne (h : HasSample events n c v s) (hi : i ≠ c) :
    HasSample events n c v (store .samples i w s).2 :=
  ⟨(store_cells_ne (by decide)).trans h.events, (store_length _ _).trans h.length,
    fun hc => (store_get_ne hi).trans (h.sample hc)⟩

theorem HasSample.getD (h : HasSample events n c v s) (hc : c < n) : (s.cells .samples).getD c 0 = v := by
  rw [List.getD_eq_getElem?_getD, h.sample hc]
  rfl

omit [DoubleArith V] in
/-- Every column updated by its own round of a loop. -/
theorem hasSample_columns {cols : Nat} {v w : Nat → V} {body : Nat → Unit → Prog Buf V Unit}
    (hbody : ∀ c < cols, ∀ t, HasSample events n c (v c) t → ∃ t' x, (body c () t).2 = (store .samples c x t').2 ∧
      t'.cells = t.cells ∧ (c < n → x = w c))
    (h₀ : ∀ c < cols, HasSample events n c (v c) s) :
    ∀ c < cols, HasSample events n c (w c) (forRange cols () body s).2 := by
  have hcells : ∀ {c : Nat} {v : V} {t t' : Arrays Buf V}, t'.cells = t.cells → HasSample events n c v t →
      HasSample events n c v t' := by
    intro c v t t' he h
    exact ⟨he ▸ h.events, he ▸ h.length, he ▸ h.sample⟩
  refine forRange_each (P := fun c t => HasSample events n c (v c) t) h₀ ?_ ?_ ?_
  · intro c hc y t ht
    obtain ⟨t', x, he, hcell, hx⟩ := hbody c hc t ht
    rw [he]
    have ht' := hcells hcell ht
    exact HasSample.store_self ht'.events ht'.length hx
  · intro c hc j hj y t ht hq
    obtain ⟨t', x, he, hcell, -⟩ := hbody c hc t ht
    rw [he]
    exact (hcells hcell hq).store_ne hj.ne'
  · intro c hc j _ hj y t ht hq
    obtain ⟨t', x, he, hcell, -⟩ := hbody c hc t ht
    rw [he]
    exact (hcells hcell hq).store_ne hj.ne

end Steps

/-! ## The reducers that fold the rows -/

section Fold
variable {events : List V} {n : Nat} {s : Arrays Buf V}

theorem foldRows_sample (x : V) (f : V → V → V) (d : Sizes) (he : s.cells .events = events)
    (hn : (s.cells .samples).length = n) :
    ∀ c < d.nEvents, HasSample events n c (overRows d events x f c d.rows) (foldRows x f d s).2 := by
  have hstart : ∀ c < d.nEvents,
      HasSample events n c x (forRange d.nEvents () (fun c _ => store .samples c x) s).2 := by
    refine forRange_each (P := fun _ t => t.cells .events = events ∧ (t.cells .samples).length = n)
      (fun _ _ => ⟨he, hn⟩) ?_ ?_ ?_
    · exact fun c _ y t ht => HasSample.store_self ht.1 ht.2 fun _ => rfl
    · exact fun c _ j hj y t _ ht => ht.store_ne hj.ne'
    · exact fun c _ j _ _ y t _ ht => ⟨(store_cells_ne (by decide)).trans ht.1, (store_length _ _).trans ht.2⟩
  refine forRange_inv (I := fun k t => ∀ c < d.nEvents, HasSample events n c (overRows d events x f c k) t)
    hstart fun r _ y t ht => ?_
  refine hasSample_columns (v := fun c => overRows d events x f c r) (fun c hc t ht => ?_) ht
  refine ⟨_, _, rfl, rfl, fun hcn => ?_⟩
  rw [overRows_succ]
  show f ((t.cells .samples).getD c 0) ((t.cells .events).getD (d.getEvents r + c) 0) = _
  rw [ht.getD hcn, ht.events]
  rfl

theorem mean_sample (d : Sizes) (he : s.cells .events = events) (hn : (s.cells .samples).length = n) :
    ∀ c < d.nEvents, HasSample events n c
      (overRows d events 0 (fun a b => a + b) c d.rows / Double.ofLong d.rows) (hmonitorEventsMean d s).2 := by
  refine hasSample_columns (v := fun c => overRows d events 0 (fun a b => a + b) c d.rows) (fun c hc t ht => ?_)
    (foldRows_sample 0 _ d he hn)
  refine ⟨_, _, rfl, rfl, fun hcn => ?_⟩
  show (t.cells .samples).getD c 0 / Double.ofLong d.rows = _
  rw [ht.getD hcn]

end Fold

/-! ## The variance -/

/-- The local arrays hold `a` and `b` in the column `c` of `cols`. -/
structure HasSums (events : List V) (n cols c : Nat) (a b : V) (cells : Buf → List V) : Prop where
  events : cells .events = events
  samples : (cells .samples).length = n
  sumLength : (cells .sum).length = cols
  squareLength : (cells .squareSum).length = cols
  sum : (cells .sum)[c]? = some a
  squareSum : (cells .squareSum)[c]? = some b

/-- The column `c` of the local arrays replaced. -/
def setSums (c : Nat) (a b : V) (cells : Buf → List V) : Buf → List V
  | .sum => (cells .sum).set c a
  | .squareSum => (cells .squareSum).set c b
  | array => cells array

section Sums
variable {events : List V} {n cols c : Nat} {a b a' b' : V} {cells : Buf → List V} {s : Arrays Buf V}

omit [DoubleArith V] in
theorem HasSums.set_self (h : HasSums events n cols c a b cells) (hc : c < cols) (a' b' : V) :
    HasSums events n cols c a' b' (setSums c a' b' cells) :=
  ⟨h.events, h.samples, List.length_set.trans h.sumLength, List.length_set.trans h.squareLength,
    List.getElem?_set_self (h.sumLength ▸ hc), List.getElem?_set_self (h.squareLength ▸ hc)⟩

omit [DoubleArith V] in
theorem HasSums.set_ne {j : Nat} (h : HasSums events n cols j a b cells) (hj : c ≠ j) (a' b' : V) :
    HasSums events n cols j a b (setSums c a' b' cells) :=
  ⟨h.events, h.samples, List.length_set.trans h.sumLength, List.length_set.trans h.squareLength,
    (List.getElem?_set_ne hj).trans h.sum, (List.getElem?_set_ne hj).trans h.squareSum⟩

omit [DoubleArith V] in
/-- A square that stays. -/
theorem HasSums.set_square (h : HasSums events n cols c a b cells) :
    (cells .squareSum).set c b = cells .squareSum := by
  obtain ⟨hlt, rfl⟩ := List.getElem?_eq_some_iff.mp h.squareSum
  exact List.set_getElem_self hlt

omit [DoubleArith V] in
/-- Every column of the local arrays updated by its own round of a loop. -/
theorem hasSums_columns {a b a' b' : Nat → V} {body : Nat → Unit → Prog Buf V Unit}
    (hbody : ∀ c < cols, ∀ t, HasSums events n cols c (a c) (b c) t.cells →
      (body c () t).2.cells = setSums c (a' c) (b' c) t.cells)
    (h₀ : ∀ c < cols, HasSums events n cols c (a c) (b c) s.cells) :
    ∀ c < cols, HasSums events n cols c (a' c) (b' c) (forRange cols () body s).2.cells := by
  refine forRange_each (P := fun c t => HasSums events n cols c (a c) (b c) t.cells)
    (Q := fun c t => HasSums events n cols c (a' c) (b' c) t.cells) h₀ ?_ ?_ ?_
  · intro c hc y t ht
    exact hbody c hc t ht ▸ ht.set_self hc _ _
  · intro c hc j hj y t ht h
    exact hbody c hc t ht ▸ h.set_ne hj.ne' _ _
  · intro c hc j _ hj y t ht h
    exact hbody c hc t ht ▸ h.set_ne hj.ne _ _

theorem HasSums.sum_getD (h : HasSums events n cols c a b cells) : (cells .sum).getD c 0 = a := by
  rw [List.getD_eq_getElem?_getD, h.sum]
  rfl

theorem HasSums.square_getD (h : HasSums events n cols c a b cells) : (cells .squareSum).getD c 0 = b := by
  rw [List.getD_eq_getElem?_getD, h.squareSum]
  rfl

end Sums

/-- The variance of a column as `hmonitor_events_var` computes it. -/
def columnVar (d : Sizes) (events : List V) (c : Nat) : V :=
  let sum := overRows d events 0 (fun a v => a + v) c d.rows
  let squareSum := overRows d events 0 (fun a v => a + v * v) c d.rows
  Double.ofLong 1 / Double.ofLong d.rows * squareSum -
    Double.ofLong 1 / (Double.ofLong d.rows * Double.ofLong d.rows) * sum * sum

/-- The first loop of `hmonitor_events_var`. -/
def varZero (d : Sizes) : Prog Buf V Unit :=
  forRange d.nEvents () fun c _ => do
    store .squareSum c 0
    store .sum c 0

/-- The loop of `hmonitor_events_var` over the rows. -/
def varScan (d : Sizes) : Prog Buf V Unit :=
  forRange d.rows () fun r _ =>
    forRange d.nEvents () fun c _ => do
      let v ← load .events (d.getEvents r + c)
      let s ← load .sum c
      store .sum c (s + v)
      let q ← load .squareSum c
      store .squareSum c (q + v * v)

def varScale (d : Sizes) (ct : V) : Prog Buf V Unit :=
  forRange d.nEvents () fun c _ => do
    let s ← load .sum c
    store .sum c (ct * s * s)

def varStore (d : Sizes) (ct : V) : Prog Buf V Unit :=
  forRange d.nSamples () fun c _ => do
    let q ← load .squareSum c
    let s ← load .sum c
    store .samples c (ct * q - s)

/-- The loops of `hmonitor_events_var`, one after the other. -/
theorem hmonitorEventsVar_eq (d : Sizes) : (hmonitorEventsVar d : Prog Buf V Unit) = (do
    varZero d
    varScan d
    varScale d (Double.ofLong 1 / (Double.ofLong d.rows * Double.ofLong d.rows))
    varStore d (Double.ofLong 1 / Double.ofLong d.rows)) := rfl

section Var
variable {events : List V} {n : Nat} {d : Sizes} {s : Arrays Buf V} {a b : Nat → V}

theorem varZero_sums (h : ∀ c < d.nEvents, HasSums events n d.nEvents c (a c) (b c) s.cells) :
    ∀ c < d.nEvents, HasSums events n d.nEvents c 0 0 (varZero d s).2.cells := by
  refine hasSums_columns (fun c _ t _ => ?_) h
  funext array
  cases array <;> rfl

theorem varScan_sums (h : ∀ c < d.nEvents, HasSums events n d.nEvents c 0 0 s.cells) :
    ∀ c < d.nEvents, HasSums events n d.nEvents c (overRows d events 0 (fun a v => a + v) c d.rows)
      (overRows d events 0 (fun a v => a + v * v) c d.rows) (varScan d s).2.cells := by
  refine forRange_inv (I := fun k t => ∀ c < d.nEvents, HasSums events n d.nEvents c
    (overRows d events 0 (fun a v => a + v) c k) (overRows d events 0 (fun a v => a + v * v) c k) t.cells)
    h fun r _ y t ht => ?_
  refine hasSums_columns (fun c _ t ht => ?_) ht
  rw [overRows_succ, overRows_succ, ← ht.sum_getD, ← ht.square_getD, ← ht.events]
  funext array
  cases array <;> rfl

theorem varScale_sums (ct : V) (h : ∀ c < d.nEvents, HasSums events n d.nEvents c (a c) (b c) s.cells) :
    ∀ c < d.nEvents, HasSums events n d.nEvents c (ct * a c * a c) (b c) (varScale d ct s).2.cells := by
  refine hasSums_columns (fun c _ t ht => ?_) h
  rw [← ht.sum_getD]
  funext array
  cases array with
  | squareSum => exact ht.set_square.symm
  | events | samples | max | min | sum => rfl

theorem varStore_sample (ct : V) (h : ∀ c < d.nEvents, HasSums events n d.nEvents c (a c) (b c) s.cells) :
    ∀ c < d.nSamples, c < d.nEvents → c < n →
      ((varStore d ct s).2.cells .samples)[c]? = some (ct * b c - a c) := by
  -- the loop leaves the local arrays alone
  refine forRange_each (P := fun _ t => ∀ c < d.nEvents, HasSums events n d.nEvents c (a c) (b c) t.cells)
    (Q := fun c t => c < d.nEvents → c < n → (t.cells .samples)[c]? = some (ct * b c - a c)) (fun _ _ => h) ?_ ?_ ?_
  · intro c _ y t ht hc hcn
    have hsums := ht c hc
    show ((t.cells .samples).set c _)[c]? = _
    rw [List.getElem?_set_self (hsums.samples ▸ hcn)]
    show some (ct * (t.cells .squareSum).getD c 0 - (t.cells .sum).getD c 0) = _
    rw [hsums.sum_getD, hsums.square_getD]
  · intro c _ j hj y t ht h hjc hjn
    show ((t.cells .samples).set c _)[j]? = _
    rw [List.getElem?_set_ne hj.ne']
    exact h hjc hjn
  · intro c _ j _ hj y t ht h i hi
    have hsums := ht i hi
    exact ⟨hsums.events, (store_length _ _).trans hsums.samples, hsums.sumLength, hsums.squareLength, hsums.sum,
      hsums.squareSum⟩

theorem var_sample (he : s.cells .events = events) (hn : (s.cells .samples).length = n)
    (hs : (s.cells .sum).length = d.nEvents) (hq : (s.cells .squareSum).length = d.nEvents) {c : Nat}
    (hc : c < d.nEvents) (hc' : c < d.nSamples) (hcn : c < n) :
    ((hmonitorEventsVar d s).2.cells .samples)[c]? = some (columnVar d events c) := by
  have hold : ∀ c < d.nEvents, HasSums events n d.nEvents c ((s.cells .sum).getD c 0) ((s.cells .squareSum).getD c 0)
      s.cells := by
    intro c hc
    refine ⟨he, hn, hs, hq, ?_, ?_⟩
    · rw [List.getD_eq_getElem?_getD, List.getElem?_eq_getElem (hs ▸ hc), Option.getD_some]
    · rw [List.getD_eq_getElem?_getD, List.getElem?_eq_getElem (hq ▸ hc), Option.getD_some]
  rw [hmonitorEventsVar_eq]
  exact varStore_sample _ (varScale_sums _ (varScan_sums (varZero_sums hold))) c hc' hc hcn

end Var

/-! ## One reduction with a given reducer -/

section Reduce
variable {T M : Type} [DecidableEq T]

/-- One reduction of `m` by its owner with the model `f`. -/
def reduceWith (f : Reducer) (m : Hmonitor T V M) : Hmonitor T V M :=
  (hmonitorReduce m.owner { m with model := some f.model }).mon

/-- The numbers of a monitor that its model sees. -/
def Hmonitor.modelSizes (m : Hmonitor T V M) : Sizes := ⟨m.nEvents, m.samples.length, m.window, m.last, m.total⟩

theorem reduceWith_samples (f : Reducer) (m : Hmonitor T V M) : (reduceWith f m).samples =
    (f.prog m.modelSizes (reducerArrays m.nEvents m.events m.samples)).2.cells .samples := by
  unfold reduceWith hmonitorReduce
  rw [if_pos rfl]
  rfl

end Reduce

end Hmon
