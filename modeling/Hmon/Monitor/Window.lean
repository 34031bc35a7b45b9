import Hmon.Lib.RingBuffer
import Hmon.Monitor.Basic

/-!
# The window of a monitor holds the most recent reads

A monitor keeps `window` rows of `n_events` values and a timestamp. All offsets into them are `unsigned`.

* `hmonitorRow` : a row as the accessors see it; `hmonitorReads` : consecutive successful reads;
* `KeepsRecent` : where the reads are after a run; `StoresOneRow` : what one of them changes;
* `HoldsSlots ring m` : the rows of `m` are the slots of a ring (`Lib.RingBuffer`) of the reads;
* `window_recent_iff` : **the window holds the most recent reads after every run exactly when the number of its
  cells fits an `unsigned`**.
-/

namespace Hmon
open Lib

variable {T V M : Type}

/-! ## The cells that a read writes -/

section Cells
variable {β : Type}

@[simp] theorem length_writeCells (cells : List β) (i : Nat) (vs : List β) :
    (writeCells cells i vs).length = cells.length := by
  induction vs generalizing cells i with
  | nil => rfl
  | cons v vs ih => rw [writeCells, ih, List.length_set]

/-- Only the written cells change. -/
theorem getElem?_writeCells_of_out {cells vs : List β} {i j : Nat} (h : j < i ∨ i + vs.length ≤ j) :
    (writeCells cells i vs)[j]? = cells[j]? := by
  induction vs generalizing cells i with
  | nil => rfl
  | cons v vs ih =>
    rw [List.length_cons] at h
    rw [writeCells, ih (by omega), List.getElem?_set_ne (by omega)]

theorem getElem?_writeCells_of_in {cells vs : List β} {i e : Nat} (he : e < vs.length)
    (hc : i + e < cells.length) : (writeCells cells i vs)[i + e]? = vs[e]? := by
  induction vs generalizing cells i e with
  | nil => exact absurd he (Nat.not_lt_zero e)
  | cons v vs ih =>
    rw [writeCells]
    cases e with
    | zero =>
      exact (getElem?_writeCells_of_out (Or.inl (Nat.lt_succ_self i))).trans (List.getElem?_set_self hc)
    | succ e =>
      have hin : (writeCells (cells.set i v) (i + 1) vs)[i + 1 + e]? = vs[e]? :=
        ih (Nat.lt_of_succ_lt_succ he) (by rw [List.length_set]; omega)
      rw [Nat.add_assoc, Nat.add_comm 1 e] at hin
      exact hin

end Cells

section Reads
variable [DecidableEq T] [Double V]

/-- The events and the timestamp of row `i`. -/
def hmonitorRow (m : Hmonitor T V M) (i : Nat) : List (Option V) :=
  (List.range m.nEvents).map (hmonitorGetEvent m i) ++ [hmonitorGetTimestamp m i]

/-- What a read with the answer `a` stores. -/
def readRow (m : Hmonitor T V M) (a : Answer V) : List V := a.values ++ [Double.ofLong (a.now - m.refTime)]

/-- Consecutive calls of `hmonitor_read` that all return 1. -/
def hmonitorReads (self : T) : List (Answer V) → Hmonitor T V M → Option (Hmonitor T V M)
  | [], m => some m
  | a :: as, m =>
    let o := hmonitorRead self a m
    if o.ret = 1 then hmonitorReads self as o.mon else none

/-- The memory that `new_hmonitor` allocates for the rows. -/
def Allocated (m : Hmonitor T V M) : Prop := m.events.length = u32 (m.window * u32 (m.nEvents + 1))

/-- After the reads `as` of the monitor `m`, the first rows are the last reads, each exactly once, and the `k`-th
read is in row `k % window`. -/
structure KeepsRecent (m : Hmonitor T V M) (as : List (Answer V)) (m' : Hmonitor T V M) : Prop where
  last : m'.last = (as.length - 1) % m.window
  total : m'.total = as.length
  rows : ((List.range (min m.window as.length)).map (hmonitorRow m')).Perm
    ((as.drop (as.length - m.window)).map fun a => (readRow m a).map some)
  row : ∀ k a, as[k]? = some a → as.length ≤ k + m.window →
    hmonitorRow m' (k % m.window) = (readRow m a).map some

/-- The read after `k` others: it goes to row `k % window` and changes no other row. -/
structure StoresOneRow (k : Nat) (m m' : Hmonitor T V M) (a : Answer V) : Prop where
  last : m'.last = k % m.window
  stored : hmonitorRow m' (k % m.window) = (readRow m a).map some
  others : ∀ i < m.window, i ≠ k % m.window → hmonitorRow m' i = hmonitorRow m i

/-- The run of reads `as` after a reset of `m` keeps the most recent ones, and each of its reads stores one row. -/
def RingRun (self : T) (m : Hmonitor T V M) (as : List (Answer V)) : Prop :=
  ∀ m', hmonitorReads self as m = some m' → KeepsRecent m as m' ∧
    ∀ pre a post, as = pre ++ a :: post → ∃ m₁ m₂, hmonitorReads self pre m = some m₁ ∧
      hmonitorReads self [a] m₁ = some m₂ ∧ StoresOneRow pre.length m₁ m₂ a

/-! ## Runs of reads -/

theorem hmonitorReads_cons {self : T} {a : Answer V} {as : List (Answer V)} {m m' : Hmonitor T V M} :
    hmonitorReads self (a :: as) m = some m' ↔
      (hmonitorRead self a m).ret = 1 ∧ hmonitorReads self as (hmonitorRead self a m).mon = some m' := by
  simp only [hmonitorReads]
  split_ifs with h <;> simp [h]

theorem hmonitorReads_append {self : T} {as bs : List (Answer V)} {m m' : Hmonitor T V M} :
    hmonitorReads self (as ++ bs) m = some m' ↔
      ∃ m₁, hmonitorReads self as m = some m₁ ∧ hmonitorReads self bs m₁ = some m' := by
  induction as generalizing m with
  | nil => simp [hmonitorReads]
  | cons a as ih =>
    rw [List.cons_append, hmonitorReads_cons, ih]
    simp only [hmonitorReads_cons]
    constructor
    · rintro ⟨hr, m₁, h1, h2⟩
      exact ⟨m₁, ⟨hr, h1⟩, h2⟩
    · rintro ⟨m₁, ⟨hr, h1⟩, h2⟩
      exact ⟨hr, m₁, h1, h2⟩

/-- A successful read takes the next row, stamps it, and lets the plugin fill it. -/
theorem hmonitorRead_cases {self : T} {a : Answer V} {m : Hmonitor T V M} (h : (hmonitorRead self a m).ret = 1) :
    m.owner = self ∧ a.ok = true ∧ (hmonitorRead self a m).mon = { nextRow a.now m with
      events := writeCells (nextRow a.now m).events (hmonitorGetEvents m (u32 (m.last + 1) % m.window))
        (a.values.take m.nEvents) } := by
  unfold hmonitorRead at h ⊢
  split_ifs at h ⊢ with ho hok
  · exact absurd h (by simp)
  · exact ⟨ho, by simpa using hok, rfl⟩
  · exact absurd h (by simp)

theorem hmonitorRead_ok {self : T} {a : Answer V} {m : Hmonitor T V M} (ho : m.owner = self) (ha : a.ok = true) :
    (hmonitorRead self a m).ret = 1 := by
  simp [hmonitorRead, ho, ha]

/-- What every run of reads does to the monitor, whatever the size of the window: `k` is the number of reads since
the reset `m`. -/
structure Counted (m : Hmonitor T V M) (k : Nat) (m' : Hmonitor T V M) : Prop where
  window : m'.window = m.window
  nEvents : m'.nEvents = m.nEvents
  refTime : m'.refTime = m.refTime
  owner : m'.owner = m.owner
  length : m'.events.length = m.events.length
  last : m'.last = (k + m.window - 1) % m.window
  total : m'.total = u32 k

omit [DecidableEq T] [Double V] in
/-- The row that a read takes. -/
theorem Counted.next {m m' : Hmonitor T V M} {k : Nat} (hw : 0 < m.window) (hw' : m.window < 2 ^ 32)
    (h : Counted m k m') : u32 (m'.last + 1) % m'.window = k % m.window := by
  have hlt := Nat.mod_lt (k + m.window - 1) hw
  have hfit : u32 ((k + m.window - 1) % m.window + 1) = (k + m.window - 1) % m.window + 1 :=
    Nat.mod_eq_of_lt (by omega)
  rw [h.window, h.last, hfit, Nat.mod_add_mod, Nat.sub_add_cancel (by omega), Nat.add_mod_right]

theorem Counted.read {self : T} {a : Answer V} {m m' : Hmonitor T V M} {k : Nat} (hw : 0 < m.window)
    (hw' : m.window < 2 ^ 32) (h : Counted m k m') (hr : (hmonitorRead self a m').ret = 1) :
    Counted m (k + 1) (hmonitorRead self a m').mon := by
  obtain ⟨-, -, he⟩ := hmonitorRead_cases hr
  rw [he]
  refine ⟨h.window, h.nEvents, h.refTime, h.owner, ?_, ?_, ?_⟩
  · rw [length_writeCells]
    exact (List.length_set ..).trans h.length
  · show u32 (m'.last + 1) % m'.window = _
    rw [h.next hw hw', Nat.add_right_comm, Nat.add_sub_cancel, Nat.add_mod_right]
  · show u32 (m'.total + 1) = _
    rw [h.total]
    unfold u32
    omega

/-- The owner's reads succeed as long as the plugin's do. -/
theorem hmonitorReads_some {self : T} {m : Hmonitor T V M} {as : List (Answer V)} (ho : m.owner = self)
    (hok : ∀ a ∈ as, a.ok = true) : ∃ m', hmonitorReads self as m = some m' := by
  induction as generalizing m with
  | nil => exact ⟨m, rfl⟩
  | cons a as ih =>
    obtain ⟨m', hm'⟩ := ih (m := (hmonitorRead self a m).mon) ((hmonitorRead_control self a m).owner.trans ho)
      fun b hb => hok b (List.mem_cons_of_mem a hb)
    exact ⟨m', hmonitorReads_cons.mpr ⟨hmonitorRead_ok ho (hok a List.mem_cons_self), hm'⟩⟩

/-- The counters after reads from a reset. -/
theorem Counted.reads {self : T} {m m₁ m' : Hmonitor T V M} {k : Nat} {as : List (Answer V)} (hw : 0 < m.window)
    (hw' : m.window < 2 ^ 32) (hc : Counted m k m₁) (hn : hmonitorReads self as m₁ = some m') :
    Counted m (k + as.length) m' := by
  induction as generalizing m₁ k with
  | nil => cases hn; exact hc
  | cons a as ih =>
    obtain ⟨hret, hn⟩ := hmonitorReads_cons.mp hn
    have := ih (hc.read hw hw' hret) hn
    rwa [List.length_cons, Nat.add_comm as.length, ← Nat.add_assoc]

/-! ## A window whose cells fit -/

omit [DecidableEq T] [Double V] in
/-- The offset of a cell, computed without overflow. -/
theorem offset_eq {window n i e : Nat} (hf : window * (n + 1) < 2 ^ 32) (hi : i < window) (he : e ≤ n) :
    u32 (i * u32 (n + 1) + e) = i * (n + 1) + e := by
  have hrow : (i + 1) * (n + 1) ≤ window * (n + 1) := Nat.mul_le_mul_right _ hi
  rw [Nat.succ_mul] at hrow
  have hn : u32 (n + 1) = n + 1 := Nat.mod_eq_of_lt (by omega)
  rw [hn]
  exact Nat.mod_eq_of_lt (by omega)

/-- Another row has no cell in row `r`. -/
theorem row_disjoint {n i r e : Nat} (hir : i ≠ r) (he : e ≤ n) :
    i * (n + 1) + e < r * (n + 1) ∨ r * (n + 1) + n < i * (n + 1) + e := by
  rcases Nat.lt_or_gt_of_ne hir with hlt | hlt
  · have := Nat.mul_le_mul_right (n + 1) hlt
    rw [Nat.succ_mul] at this
    omega
  · have := Nat.mul_le_mul_right (n + 1) hlt
    rw [Nat.succ_mul] at this
    omega

/-- The row that the next read takes. -/
def nextIndex (m : Hmonitor T V M) : Nat := u32 (m.last + 1) % m.window

/-- The rows below `rows` lie inside the buffer, all of whose cells have an `unsigned` index. -/
structure RowsFit (m : Hmonitor T V M) (rows : Nat) : Prop where
  inside : rows * (m.nEvents + 1) ≤ m.events.length
  indexed : m.events.length < 2 ^ 32

omit [DecidableEq T] [Double V] in
theorem Allocated.indexed {m : Hmonitor T V M} (h : Allocated m) : m.events.length < 2 ^ 32 := by
  rw [h]
  exact Nat.mod_lt _ (by decide)

omit [DecidableEq T] [Double V] in
/-- All rows of a window that fits. -/
theorem Allocated.rowsFit {m : Hmonitor T V M} (h : Allocated m) (hw : 0 < m.window)
    (hf : m.window * (m.nEvents + 1) < 2 ^ 32) : RowsFit m m.window := by
  refine ⟨?_, h.indexed⟩
  have hn : u32 (m.nEvents + 1) = m.nEvents + 1 := Nat.mod_eq_of_lt ((Nat.le_mul_of_pos_left _ hw).trans_lt hf)
  rw [h, hn]
  exact (Nat.mod_eq_of_lt hf).ge

section Fits
variable {self : T} {a : Answer V} {m : Hmonitor T V M} {rows : Nat}

omit [DecidableEq T] [Double V] in
theorem RowsFit.lt (hf : RowsFit m rows) : rows * (m.nEvents + 1) < 2 ^ 32 := hf.inside.trans_lt hf.indexed

/-- The cells after a successful read, whose row fits. -/
theorem read_cells (hf : RowsFit m rows) (hi : nextIndex m < rows)
    (hv : a.values.length = m.nEvents) (hr : (hmonitorRead self a m).ret = 1) :
    let base := nextIndex m * (m.nEvents + 1)
    let cells := (hmonitorRead self a m).mon.events
    (∀ e < m.nEvents, cells[base + e]? = a.values[e]?) ∧
      cells[base + m.nEvents]? = some (Double.ofLong (a.now - m.refTime)) ∧
      ∀ j, j < base ∨ base + m.nEvents < j → cells[j]? = m.events[j]? := by
  have hrow : (nextIndex m + 1) * (m.nEvents + 1) ≤ rows * (m.nEvents + 1) := Nat.mul_le_mul_right _ hi
  rw [Nat.succ_mul] at hrow
  have hlen := hf.inside
  have hbase : u32 (nextIndex m * u32 (m.nEvents + 1)) = nextIndex m * (m.nEvents + 1) :=
    offset_eq hf.lt hi (Nat.zero_le _)
  have hstamp : u32 (nextIndex m * u32 (m.nEvents + 1) + m.nEvents) = nextIndex m * (m.nEvents + 1) + m.nEvents :=
    offset_eq hf.lt hi le_rfl
  have hcells : (hmonitorRead self a m).mon.events =
      writeCells (m.events.set (nextIndex m * (m.nEvents + 1) + m.nEvents) (Double.ofLong (a.now - m.refTime)))
        (nextIndex m * (m.nEvents + 1)) a.values := by
    rw [(hmonitorRead_cases hr).2.2, List.take_of_length_le hv.le]
    show writeCells (m.events.set (u32 (nextIndex m * u32 (m.nEvents + 1) + m.nEvents)) _)
      (u32 (nextIndex m * u32 (m.nEvents + 1))) a.values = _
    rw [hbase, hstamp]
  intro base cells
  refine ⟨fun e he => ?_, ?_, fun j hj => ?_⟩
  · show (hmonitorRead self a m).mon.events[base + e]? = _
    rw [hcells]
    exact getElem?_writeCells_of_in (by omega) (by rw [List.length_set]; omega)
  · show (hmonitorRead self a m).mon.events[base + m.nEvents]? = _
    rw [hcells, getElem?_writeCells_of_out (Or.inr (by omega))]
    exact List.getElem?_set_self (by omega)
  · show (hmonitorRead self a m).mon.events[j]? = _
    rw [hcells, getElem?_writeCells_of_out (by omega), List.getElem?_set_ne (by omega)]

omit [DecidableEq T] [Double V] in
/-- A row that fits, cell by cell. -/
theorem hmonitorRow_eq {i : Nat} (hf : rows * (m.nEvents + 1) < 2 ^ 32) (hi : i < rows) :
    hmonitorRow m i = (List.range (m.nEvents + 1)).map fun e => m.events[i * (m.nEvents + 1) + e]? := by
  rw [List.range_succ, List.map_append, List.map_singleton]
  unfold hmonitorRow hmonitorGetTimestamp
  rw [offset_eq hf hi le_rfl]
  congr 1
  refine List.map_congr_left fun e he => ?_
  unfold hmonitorGetEvent
  rw [offset_eq hf hi (List.mem_range.mp he).le]

/-- A successful read stores its values and its time in the next row and changes no other row. -/
theorem hmonitorRead_rows (hf : RowsFit m rows) (hi : nextIndex m < rows)
    (hv : a.values.length = m.nEvents) (hr : (hmonitorRead self a m).ret = 1) :
    hmonitorRow (hmonitorRead self a m).mon (nextIndex m) = (readRow m a).map some ∧
      ∀ i < rows, i ≠ nextIndex m → hmonitorRow (hmonitorRead self a m).mon i = hmonitorRow m i := by
  obtain ⟨hin, hstamp, hout⟩ := read_cells hf hi hv hr
  have hnew : ∀ i < rows, hmonitorRow (hmonitorRead self a m).mon i =
      (List.range (m.nEvents + 1)).map fun e => (hmonitorRead self a m).mon.events[i * (m.nEvents + 1) + e]? := by
    intro i hi
    have hn : (hmonitorRead self a m).mon.nEvents = m.nEvents := by
      rw [(hmonitorRead_cases hr).2.2]
      rfl
    have := hmonitorRow_eq (m := (hmonitorRead self a m).mon) (by rw [hn]; exact hf.lt) hi
    rwa [hn] at this
  constructor
  · rw [hnew _ hi, List.range_succ, List.map_append, List.map_singleton, hstamp, readRow,
      List.map_append, List.map_singleton]
    congr 1
    refine List.ext_getElem? fun e => ?_
    by_cases he : e < m.nEvents
    · have := hin e he
      simp only [List.getElem?_map, List.getElem?_range he, Option.map_some, this]
      rw [List.getElem?_eq_getElem (by omega)]
      rfl
    · rw [List.getElem?_eq_none (by simp; omega), List.getElem?_eq_none (by simp; omega)]
  · intro i hi hne
    rw [hnew i hi, hmonitorRow_eq hf.lt hi]
    refine List.map_congr_left fun e he => ?_
    have := row_disjoint hne (Nat.le_of_lt_succ (List.mem_range.mp he))
    exact hout _ this

omit [DecidableEq T] in
/-- The rows below `rows` hold what the slots of the ring hold. -/
def HoldsSlots (rows : Nat) (r : RingBuffer (List V)) (m : Hmonitor T V M) : Prop :=
  ∀ i < rows, ∀ x, r.slot i = some x → hmonitorRow m i = x.map some

omit [DecidableEq T] in
/-- The monitor after a reset, before the first read. -/
theorem Counted.reset (now : Int) (m : Hmonitor T V M) :
    Counted (hmonitorReset now m) 0 (hmonitorReset now m) := by
  refine ⟨rfl, rfl, rfl, rfl, rfl, ?_, rfl⟩
  rw [Nat.zero_add]
  by_cases h : m.window = 0
  · simp [hmonitorReset, h]
  · exact (Nat.mod_eq_of_lt (show m.window - 1 < m.window by omega)).symm

omit [DecidableEq T] [Double V] in
theorem RowsFit.of_counted {m' : Hmonitor T V M} {k : Nat} (hf : RowsFit m rows) (hc : Counted m k m') :
    RowsFit m' rows := by
  refine ⟨?_, ?_⟩
  · rw [hc.nEvents, hc.length]
    exact hf.inside
  · rw [hc.length]
    exact hf.indexed

/-- Reads refine pushes on the ring. -/
theorem HoldsSlots.reads {m₁ m' : Hmonitor T V M} {k : Nat} {r : RingBuffer (List V)} {as : List (Answer V)}
    (hw : 0 < m.window) (hw' : m.window < 2 ^ 32) (hf : RowsFit m rows) (hrows : min m.window (k + as.length) ≤ rows)
    (hv : ∀ a ∈ as, a.values.length = m.nEvents) (hc : Counted m k m₁) (hr : r.count = k)
    (hh : HoldsSlots rows r m₁) (hn : hmonitorReads self as m₁ = some m') :
    Counted m (k + as.length) m' ∧ HoldsSlots rows (r.pushAll m.window (as.map (readRow m))) m' := by
  induction as generalizing m₁ k r with
  | nil =>
    cases hn
    exact ⟨hc, hh⟩
  | cons a as ih =>
    obtain ⟨hret, hn⟩ := hmonitorReads_cons.mp hn
    have hidx : nextIndex m₁ = k % m.window := hc.next hw hw'
    rw [List.length_cons] at hrows
    have hk : nextIndex m₁ < rows := by
      have hlt := Nat.mod_lt k hw
      have hle := Nat.mod_le k m.window
      omega
    obtain ⟨hnew, hold⟩ := hmonitorRead_rows (hf.of_counted hc) hk
      ((hv a List.mem_cons_self).trans hc.nEvents.symm) hret
    have hrow : readRow m₁ a = readRow m a := by
      unfold readRow
      rw [hc.refTime]
    have hc' := hc.read hw hw' hret
    have hh' : HoldsSlots rows (r.push m.window (readRow m a)) (hmonitorRead self a m₁).mon := by
      intro i hi x hx
      by_cases hik : i = k % m.window
      · subst hik
        simp only [RingBuffer.push, hr, Function.update_self, Option.some.injEq] at hx
        rw [← hidx, hnew, hrow, hx]
      · rw [RingBuffer.push_slot_ne (hr ▸ hik)] at hx
        rw [hold i hi (hidx ▸ hik)]
        exact hh i hi x hx
    obtain ⟨h1, h2⟩ := ih (by omega) (fun b hb => hv b (List.mem_cons_of_mem a hb)) hc'
      (by simp [RingBuffer.push, hr]) hh' hn
    exact ⟨by rwa [List.length_cons, Nat.add_comm as.length, ← Nat.add_assoc], h2⟩

omit [DecidableEq T] in
/-- Rows that refine a ring of all reads hold the most recent ones. -/
theorem KeepsRecent.of_slots {m' : Hmonitor T V M} {as : List (Answer V)} (hw : 0 < m.window)
    (hne : as ≠ []) (hlen : as.length < 2 ^ 32) (hc : Counted m as.length m')
    (hrows : min m.window as.length ≤ rows)
    (hh : HoldsSlots rows (RingBuffer.empty.pushAll m.window (as.map (readRow m))) m') : KeepsRecent m as m' := by
  have hpos : 0 < as.length := List.length_pos_of_ne_nil hne
  refine ⟨?_, ?_, ?_, fun k a hk hrecent => ?_⟩
  · rw [hc.last, Nat.sub_add_comm hpos, Nat.add_mod_right]
  · rw [hc.total]
    exact Nat.mod_eq_of_lt hlen
  · have hslots := RingBuffer.slots_perm_recent m.window (as.map (readRow m))
    rw [List.length_map, ← List.map_drop, List.map_map] at hslots
    have hrows : (List.range (min m.window as.length)).map (hmonitorRow m') =
        ((List.range (min m.window as.length)).map
          (RingBuffer.empty.pushAll m.window (as.map (readRow m))).slot).map fun x => (x.getD []).map some := by
      rw [List.map_map]
      refine List.map_congr_left fun i hi => ?_
      obtain ⟨a, -, ha⟩ := List.mem_map.mp (hslots.mem_iff.mp (List.mem_map_of_mem hi))
      rw [hh i ((List.mem_range.mp hi).trans_le hrows) _ ha.symm, Function.comp_apply, ← ha]
      rfl
    rw [hrows]
    refine (hslots.map _).trans (List.Perm.of_eq ?_)
    rw [List.map_map]
    exact List.map_congr_left fun a _ => rfl
  · have hklt : k < as.length := (List.getElem?_eq_some_iff.mp hk).1
    have hslot : (RingBuffer.empty.pushAll m.window (as.map (readRow m))).slot (k % m.window) =
        (as.map (readRow m))[k]? :=
      RingBuffer.pushAll_slot_of_recent (by rwa [List.length_map]) (by rwa [List.length_map])
    rw [List.getElem?_map, hk] at hslot
    have hlt := Nat.mod_lt k hw
    have hle := Nat.mod_le k m.window
    exact hh _ (by omega) _ hslot

omit [DecidableEq T] in
@[simp] theorem length_events_reset (now : Int) (m : Hmonitor T V M) :
    (hmonitorReset now m).events.length = m.events.length := by
  unfold hmonitorReset
  simp only [List.length_append, List.length_map, List.length_take, List.length_drop]
  omega

omit [DecidableEq T] in
theorem Allocated.reset {m : Hmonitor T V M} (h : Allocated m) (now : Int) : Allocated (hmonitorReset now m) :=
  (length_events_reset now m).trans h

omit [DecidableEq T] in
theorem RowsFit.reset (hf : RowsFit m rows) (now : Int) : RowsFit (hmonitorReset now m) rows := by
  refine ⟨?_, ?_⟩
  · rw [length_events_reset]
    exact hf.inside
  · rw [length_events_reset]
    exact hf.indexed

/-- The reads after a reset, in rows that fit. -/
theorem HoldsSlots.reset_reads {now : Int} {as : List (Answer V)} {m' : Hmonitor T V M} (hw : 0 < m.window)
    (hw' : m.window < 2 ^ 32) (hf : RowsFit m rows) (hrows : min m.window as.length ≤ rows)
    (hv : ∀ a ∈ as, a.values.length = m.nEvents) (hn : hmonitorReads self as (hmonitorReset now m) = some m') :
    Counted (hmonitorReset now m) as.length m' ∧
      HoldsSlots rows (RingBuffer.empty.pushAll m.window (as.map (readRow (hmonitorReset now m)))) m' := by
  have := HoldsSlots.reads (m := hmonitorReset now m) (k := 0) (r := RingBuffer.empty) hw hw' (hf.reset now)
    (by rwa [Nat.zero_add]) hv (Counted.reset now m) rfl (fun i _ x hx => by cases hx) hn
  rwa [Nat.zero_add] at this

/-- The rows that the reads after a reset take hold the most recent ones, if they fit. -/
theorem KeepsRecent.of_rowsFit {now : Int} {as : List (Answer V)} {m' : Hmonitor T V M} (hw : 0 < m.window)
    (hw' : m.window < 2 ^ 32) (hf : RowsFit m (min m.window as.length)) (hne : as ≠ []) (hlen : as.length < 2 ^ 32)
    (hv : ∀ a ∈ as, a.values.length = m.nEvents) (hn : hmonitorReads self as (hmonitorReset now m) = some m') :
    KeepsRecent (hmonitorReset now m) as m' := by
  obtain ⟨hc, hh⟩ := HoldsSlots.reset_reads hw hw' hf le_rfl hv hn
  exact KeepsRecent.of_slots (m := hmonitorReset now m) hw hne hlen hc le_rfl hh

/-- The reads after a reset, in a window that fits. -/
theorem RingRun.of_fits {now : Int} {as : List (Answer V)} (hw : 0 < m.window) (hw' : m.window < 2 ^ 32)
    (hf : RowsFit m m.window) (hne : as ≠ []) (hlen : as.length < 2 ^ 32)
    (hv : ∀ a ∈ as, a.values.length = m.nEvents) : RingRun self (hmonitorReset now m) as := by
  intro m' hn
  obtain ⟨hc, hh⟩ := HoldsSlots.reset_reads hw hw' hf (Nat.min_le_left ..) hv hn
  refine ⟨KeepsRecent.of_slots hw hne hlen hc (Nat.min_le_left ..) hh, fun pre a post he => ?_⟩
  subst he
  obtain ⟨m₁, h1, h2⟩ := hmonitorReads_append.mp hn
  obtain ⟨hret, -⟩ := hmonitorReads_cons.mp h2
  have hc₁ := (HoldsSlots.reset_reads hw hw' hf (Nat.min_le_left ..)
    (fun b hb => hv b (List.mem_append_left _ hb)) h1).1
  have hidx : nextIndex m₁ = pre.length % m.window := Counted.next (m := hmonitorReset now m) hw hw' hc₁
  obtain ⟨hnew, hold⟩ := hmonitorRead_rows ((hf.reset now).of_counted hc₁) (by rw [hidx]; exact Nat.mod_lt _ hw)
    ((hv a (by simp)).trans hc₁.nEvents.symm) hret
  have hwin : m₁.window = m.window := hc₁.window
  refine ⟨m₁, _, h1, hmonitorReads_cons.mpr ⟨hret, rfl⟩, ?_, ?_, fun i hi hik => ?_⟩
  · rw [hwin, ← hidx, (hmonitorRead_cases hret).2.2]
    rfl
  · rw [hwin, ← hidx]
    exact hnew
  · exact hold i (hwin ▸ hi) (by rwa [hidx, ← hwin])

end Fits

end Reads

/-! ## A window whose cells do not fit -/

section Overflow
variable [DecidableEq T]

/-- Reads at time 0, and one more at time 1, all of whose values are 0. -/
def lateReads (nEvents r : Nat) : List (Answer ℚ) :=
  List.replicate r ⟨true, List.replicate nEvents 0, 0⟩ ++ [⟨true, List.replicate nEvents 0, 1⟩]

theorem lateReads_mem {nEvents r : Nat} {a : Answer ℚ} (h : a ∈ lateReads nEvents r) :
    a.ok = true ∧ a.values = List.replicate nEvents 0 := by
  unfold lateReads at h
  rw [List.mem_append, List.mem_singleton] at h
  rcases h with h | rfl
  · rw [List.eq_of_mem_replicate h]
    exact ⟨rfl, rfl⟩
  · exact ⟨rfl, rfl⟩

/-- The first row that does not fit the allocation. -/
theorem overflow_row {window n : Nat} (hn : n < 2 ^ 32) (h : 2 ^ 32 ≤ window * (n + 1)) :
    let A := u32 (window * u32 (n + 1))
    let r := A / (n + 1)
    r < window ∧ (A ≤ u32 (r * u32 (n + 1) + n) ∨
      0 < r ∧ n + 1 ≤ A ∧ u32 (r * u32 (n + 1)) = r * (n + 1) ∧
        ∃ w < n, u32 (r * u32 (n + 1) + n) = w) := by
  intro A r
  have hA : A < 2 ^ 32 := Nat.mod_lt _ (by decide)
  have hr : r * (n + 1) ≤ A := Nat.div_mul_le_self A (n + 1)
  have hlt : A < r * (n + 1) + (n + 1) := Nat.lt_div_mul_add (Nat.succ_pos n)
  refine ⟨(Nat.div_lt_iff_lt_mul (Nat.succ_pos n)).mpr (hA.trans_le h), ?_⟩
  by_cases hin : A ≤ u32 (r * u32 (n + 1) + n)
  · exact Or.inl hin
  · refine Or.inr ?_
    have hfull : n + 1 < 2 ^ 32 := by
      by_contra hfull
      have hz : u32 (n + 1) = 0 := by
        rw [show n + 1 = 2 ^ 32 by omega]
        rfl
      have hA0 : A = 0 := by
        show u32 (window * u32 (n + 1)) = 0
        rw [hz]
        rfl
      omega
    have hid : u32 (n + 1) = n + 1 := Nat.mod_eq_of_lt hfull
    rw [hid] at hin ⊢
    have hwrap : 2 ^ 32 ≤ r * (n + 1) + n := by
      by_contra hno
      have : u32 (r * (n + 1) + n) = r * (n + 1) + n := Nat.mod_eq_of_lt (by omega)
      omega
    have hpos : 0 < r := by
      rcases Nat.eq_zero_or_pos r with h0 | h0
      · rw [h0, Nat.zero_mul] at hwrap
        omega
      · exact h0
    refine ⟨hpos, (Nat.le_mul_of_pos_left (n + 1) hpos).trans hr, Nat.mod_eq_of_lt (by omega), _, ?_, rfl⟩
    unfold u32
    omega

section Late
variable {self : T} {m m' : Hmonitor T ℚ M}

theorem lateReads_first {nEvents r : Nat} (h : 0 < r) :
    (lateReads nEvents r)[0]? = some ⟨true, List.replicate nEvents 0, 0⟩ := by
  unfold lateReads
  rw [List.getElem?_append_left (by rwa [List.length_replicate]), List.getElem?_replicate_of_lt h]

theorem lateReads_last (nEvents r : Nat) :
    (lateReads nEvents r)[r]? = some ⟨true, List.replicate nEvents 0, 1⟩ := by
  unfold lateReads
  rw [List.getElem?_append_right (by rw [List.length_replicate]), List.length_replicate, Nat.sub_self]
  rfl

/-- The last of the late reads stamps its row wherever the wrapped offset lies, also in row 0. -/
theorem lateReads_stamp {r w : Nat} (hw : 0 < m.window) (hw' : m.window < 2 ^ 32)
    (hr : r < m.window) (hn : hmonitorReads self (lateReads m.nEvents r) (hmonitorReset 0 m) = some m')
    (hwrap : u32 (r * u32 (m.nEvents + 1) + m.nEvents) = w) (hrow : w < u32 (r * u32 (m.nEvents + 1)))
    (hin : w < m'.events.length) : m'.events[w]? = some 1 := by
  unfold lateReads at hn
  obtain ⟨m₁, h1, h2⟩ := hmonitorReads_append.mp hn
  obtain ⟨hret, hlast⟩ := hmonitorReads_cons.mp h2
  cases hlast
  have hc := Counted.reads (m := hmonitorReset 0 m) hw hw' (Counted.reset 0 m) h1
  rw [Nat.zero_add, List.length_replicate] at hc
  have hidx : u32 (m₁.last + 1) % m₁.window = r :=
    (Counted.next (m := hmonitorReset 0 m) hw hw' hc).trans (Nat.mod_eq_of_lt hr)
  have hnev : m₁.nEvents = m.nEvents := hc.nEvents
  rw [(hmonitorRead_cases hret).2.2] at hin ⊢
  simp only [nextRow, hmonitorSetTimestamp, hmonitorGetEvents, hidx, hnev, hwrap, length_writeCells,
    List.length_set] at hin ⊢
  rw [getElem?_writeCells_of_out (Or.inl hrow), List.getElem?_set_self hin]
  have href : m₁.refTime = 0 := hc.refTime
  rw [href]
  rfl

/-- In a window that does not fit, some reads are lost or overwritten. -/
theorem overflow_not_recent (hw : 0 < m.window) (hw' : m.window < 2 ^ 32) (hn : m.nEvents < 2 ^ 32)
    (h : 2 ^ 32 ≤ m.window * (m.nEvents + 1)) (ha : Allocated m) (ho : m.owner = self) :
    m.events.length / (m.nEvents + 1) < m.window ∧
      ¬ RingRun self (hmonitorReset 0 m) (lateReads m.nEvents (m.events.length / (m.nEvents + 1))) := by
  obtain ⟨hr, hcase⟩ := overflow_row hn h
  rw [← ha] at hr hcase
  refine ⟨hr, fun hrun => ?_⟩
  generalize m.events.length / (m.nEvents + 1) = r at hr hcase hrun
  obtain ⟨m', hm'⟩ : ∃ m', hmonitorReads self (lateReads m.nEvents r) (hmonitorReset 0 m) = some m' :=
    hmonitorReads_some ho fun a ha => (lateReads_mem ha).1
  obtain ⟨hkeep, -⟩ := hrun m' hm'
  have hc := Counted.reads (m := hmonitorReset 0 m) hw hw' (Counted.reset 0 m) hm'
  have hlen : m'.events.length = m.events.length := hc.length.trans (length_events_reset 0 m)
  have hn' : m'.nEvents = m.nEvents := hc.nEvents
  have hcount : (lateReads m.nEvents r).length = r + 1 := by simp [lateReads]
  rcases hcase with hout | ⟨hpos, hrow0, hbase, w, hwn, hwrap⟩
  · have hrow := hkeep.row r _ (lateReads_last m.nEvents r) (by rw [hcount]; exact Nat.add_le_add_left hw r)
    have hlast := congrArg List.getLast? hrow
    rw [show r % (hmonitorReset 0 m).window = r from Nat.mod_eq_of_lt hr] at hlast
    simp only [hmonitorRow, readRow, List.map_append, List.map_singleton, List.getLast?_concat, Option.some.injEq,
      hmonitorGetTimestamp, hn'] at hlast
    rw [List.getElem?_eq_none (by rw [hlen]; exact hout)] at hlast
    cases hlast
  · have hrow := hkeep.row 0 _ (lateReads_first hpos) (by rw [hcount, Nat.zero_add]; exact hr)
    have hcell : m'.events[w]? = some 0 := by
      have hw0 := congrArg (fun l => l[w]?) hrow
      simp only [hmonitorRow, readRow, Nat.zero_mod, hn'] at hw0
      rw [List.getElem?_append_left (by simpa using hwn), List.getElem?_map, List.getElem?_range hwn,
        List.getElem?_map, List.getElem?_append_left (by simpa using hwn),
        List.getElem?_replicate_of_lt hwn] at hw0
      simp only [Option.map_some, Option.some.injEq, hmonitorGetEvent, Nat.zero_mul, Nat.zero_add] at hw0
      rwa [show u32 w = w from Nat.mod_eq_of_lt (hwn.trans hn)] at hw0
    have hone := lateReads_stamp hw hw' hr hm' hwrap
      (by rw [hbase]; exact hwn.trans ((Nat.lt_succ_self _).trans_le (Nat.le_mul_of_pos_left _ hpos)))
      (by rw [hlen]; omega)
    rw [hcell] at hone
    exact absurd (Option.some.inj hone) (by decide)

/-! ## Exactly when -/

omit [DecidableEq T] in
theorem newHmonitor_allocated {V : Type} [Double V] {self : T} {now : Int} {s : Spec V M} {m : Hmonitor T V M}
    (h : newHmonitor self now s = some m) :
    Allocated m ∧ m.owner = self ∧ m.window = s.window ∧ m.nEvents = s.addedEvents := by
  unfold newHmonitor at h
  by_cases hw : s.window = 0
  · rw [if_pos hw] at h
    cases h
  rw [if_neg hw, Option.some.injEq] at h
  subst h
  refine ⟨Allocated.reset ?_ now, rfl, rfl, rfl⟩
  unfold Allocated
  rw [List.length_map, List.length_range]

end Late

/-- The request for a monitor of one core with `window` rows of `nEvents` events. -/
def windowSpec (window nEvents : Nat) : Spec ℚ ℕ :=
  { fakeSpec [] ⟨.core, 1, 0, {0}⟩ fun _ => 0 with window := window, addedEvents := nEvents }

/-- **The window holds exactly the most recent reads after every run of reads from a reset, if and only if the number
of its cells is an `unsigned`.** -/
theorem window_recent_iff {window nEvents : Nat} (hw : 0 < window) (hw' : window < 2 ^ 32) (hn : nEvents < 2 ^ 32) :
    (∀ (T V M : Type) (_ : DecidableEq T) (_ : Double V) (self : T) (now : Int) (m : Hmonitor T V M)
      (as : List (Answer V)), m.window = window → m.nEvents = nEvents → Allocated m → as ≠ [] →
      as.length < 2 ^ 32 → (∀ a ∈ as, a.values.length = nEvents) → RingRun self (hmonitorReset now m) as) ↔
    window * (nEvents + 1) < 2 ^ 32 := by
  constructor
  · intro h
    by_contra hover
    obtain ⟨m, hm⟩ : ∃ m : Hmonitor ℕ ℚ ℕ, newHmonitor 0 0 (windowSpec window nEvents) = some m :=
      ⟨_, if_neg hw.ne'⟩
    obtain ⟨ha, ho, rfl, rfl⟩ := newHmonitor_allocated hm
    obtain ⟨hr, hnot⟩ := overflow_not_recent hw hw' hn (not_lt.mp hover) ha ho
    refine hnot (h ℕ ℚ ℕ _ _ 0 0 m _ rfl rfl ha (by simp [lateReads]) ?_ ?_)
    · simp only [lateReads, List.length_append, List.length_replicate, List.length_singleton]
      exact (Nat.succ_le_of_lt hr).trans_lt hw'
    · intro a ha
      rw [(lateReads_mem ha).2, List.length_replicate]
  · rintro hf T V M _ _ self now m as rfl rfl ha hne hlen hv
    exact RingRun.of_fits hw hw' (ha.rowsFit hw hf) hne hlen hv

/-- Three reads of one event in a window of two rows. -/
theorem window_recent_two : RingRun 0 (hmonitorReset 0 ((newHmonitor 0 0 (windowSpec 2 1)).get rfl : Hmonitor ℕ ℚ ℕ))
    [⟨true, [5], 1⟩, ⟨true, [6], 2⟩, ⟨true, [7], 3⟩] :=
  (window_recent_iff (Nat.succ_pos 1) (by decide) (by decide : 1 < 2 ^ 32)).mpr (by decide)
    ℕ ℚ ℕ _ _ 0 0 _ _ rfl rfl rfl (by decide) (by decide) (by decide)

/-- 65536 rows of 65536 events and a timestamp are 65536 cells modulo `2 ^ 32`: the timestamp of the first read is
outside. -/
theorem window_overflow : ∃ m : Hmonitor ℕ ℚ ℕ, newHmonitor 0 0 (windowSpec 65536 65536) = some m ∧
    ¬ RingRun 0 (hmonitorReset 0 m) (lateReads 65536 0) := by
  obtain ⟨m, hm⟩ : ∃ m : Hmonitor ℕ ℚ ℕ, newHmonitor 0 0 (windowSpec 65536 65536) = some m := ⟨_, if_neg (by decide)⟩
  obtain ⟨ha, ho, hwin, hnev⟩ := newHmonitor_allocated hm
  have hwin : m.window = 65536 := hwin
  have hnev : m.nEvents = 65536 := hnev
  have hnot := (overflow_not_recent (by rw [hwin]; decide) (by rw [hwin]; decide) (by rw [hnev]; decide)
    (by rw [hwin, hnev]; decide) ha ho).2
  have hr : m.events.length / (m.nEvents + 1) = 0 := by
    rw [ha, hwin, hnev]
    decide
  rw [hr, hnev] at hnot
  exact ⟨m, hm, hnot⟩

end Overflow

end Hmon
