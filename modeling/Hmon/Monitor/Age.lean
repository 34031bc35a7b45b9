import Hmon.Monitor.Buffer

/-!
# Rows by age (`hmonitor_get_events`, `hmonitor_get_timestamp`)

The public header counts the rows from the latest read; the functions count them from the start of the buffer.

* `HoldsRead` : what the two functions return for a row is what one read stored;
* `ReadsInside` : a run of reads writes only cells of the buffer; `readsInside_iff` : when it does;
* `ByAge` : row `i` is the `i`-th most recent read, for each `i` that the header speaks of, and neither the reset nor a
  read leaves the buffer;
* `byAge_iff` : **every run of `n` reads is addressed by age exactly when what the reset zeroes and its rows fit, and
  the last read went to row 0 of a window of at most two rows (or is the only one counted)**.
-/

namespace Hmon
open Lib

variable {T V M : Type} [DecidableEq T] [Double V]

/-- `hmonitor_get_events` and `hmonitor_get_timestamp` of row `i` return the values and the time of the read `a`. -/
structure HoldsRead (m : Hmonitor T V M) (i : Nat) (a : Answer V) : Prop where
  events : ∀ e < m.nEvents, m.events[hmonitorGetEvents m i + e]? = a.values[e]?
  timestamp : hmonitorGetTimestamp m i = some (Double.ofLong (a.now - m.refTime))

/-- Every read of the run writes inside the buffer. -/
def ReadsInside (self : T) (as : List (Answer V)) (m : Hmonitor T V M) : Prop :=
  ∀ pre post m₁, as = pre ++ post → post ≠ [] → hmonitorReads self pre m = some m₁ →
    ∀ j ∈ readCells m₁ (nextIndex m₁), j < m₁.events.length

/-- After the reset that gave `m` and the reads `as`, the row `i` is the `i`-th most recent of them, 0 being the last. -/
structure ByAge (t : T) (m : Hmonitor T V M) (as : List (Answer V)) (m' : Hmonitor T V M) : Prop where
  reset : ResetInside m
  inside : ReadsInside t as m
  rows : ∀ i < min m'.window m'.total, ∃ a, as[as.length - 1 - i]? = some a ∧ HoldsRead m' i a

omit [DecidableEq T] in
/-- A row as the accessors see it. -/
theorem HoldsRead.of_row {m : Hmonitor T V M} {a : Answer V} {i rows : Nat} (hf : RowsFit m rows) (hi : i < rows)
    (hv : a.values.length = m.nEvents) (h : hmonitorRow m i = (readRow m a).map some) : HoldsRead m i a := by
  unfold hmonitorRow readRow at h
  rw [List.map_append] at h
  obtain ⟨hevents, hstamp⟩ := List.append_inj h (by simp [hv])
  refine ⟨fun e he => ?_, (List.cons.inj hstamp).1⟩
  have hbase : hmonitorGetEvents m i = i * (m.nEvents + 1) := offset_eq hf.lt hi (Nat.zero_le _)
  have hindex : m.index i e = i * (m.nEvents + 1) + e := offset_eq hf.lt hi he.le
  have hcell := congrArg (fun l => l[e]?) hevents
  simp only [List.getElem?_map, List.getElem?_range he, Option.map_some, hmonitorGetEvent_eq, hindex] at hcell
  have hvalue : a.values[e]? = some (a.values.get ⟨e, hv ▸ he⟩) := List.getElem?_eq_getElem _
  rw [hvalue] at hcell ⊢
  rw [hbase]
  exact Option.some.inj hcell

/-! ## Reads inside the buffer -/

section Runs
variable {self : T} {now : Int} {m m' : Hmonitor T V M} {as : List (Answer V)}

omit [DecidableEq T] in
theorem resetInside_reset_iff (now : Int) :
    ResetInside (hmonitorReset now m) ↔ u32 (m.window * m.nEvents + 1) ≤ m.events.length := by
  rw [resetInside_iff, length_events_reset]
  rfl

omit [DecidableEq T] [Double V] in
theorem readCells_congr {m₁ m₂ : Hmonitor T V M} (h : m₁.nEvents = m₂.nEvents) (i : Nat) :
    readCells m₁ i = readCells m₂ i := by
  unfold readCells Hmonitor.index
  rw [h]

/-- A run of reads takes the rows below its length. -/
theorem readsInside_iff (hw : 0 < m.window) (hw' : m.window < 2 ^ 32) (ha : Allocated m) (hn : m.nEvents < 2 ^ 32)
    (hr : hmonitorReads self as (hmonitorReset now m) = some m') :
    ReadsInside self as (hmonitorReset now m) ↔
      min m.window as.length * (m.nEvents + 1) ≤ m.events.length := by
  have counted : ∀ {pre : List (Answer V)} {m₁ : Hmonitor T V M},
      hmonitorReads self pre (hmonitorReset now m) = some m₁ → Counted (hmonitorReset now m) pre.length m₁ := by
    intro pre m₁ h
    have := Counted.reads (m := hmonitorReset now m) hw hw' (Counted.reset now m) h
    rwa [Nat.zero_add] at this
  rw [← readCells_inside_iff ha hn]
  constructor
  · intro h i hi j hj
    have happ : as = as.take i ++ as.drop i := (List.take_append_drop i as).symm
    have hlen : (as.take i).length = i := by
      rw [List.length_take]
      omega
    have hne : as.drop i ≠ [] := by
      rw [Ne, List.drop_eq_nil_iff]
      omega
    rw [happ] at hr
    obtain ⟨m₁, h1, -⟩ := hmonitorReads_append.mp hr
    have hc := counted h1
    rw [hlen] at hc
    have hindex : nextIndex m₁ = i :=
      (Counted.next (m := hmonitorReset now m) hw hw' hc).trans (Nat.mod_eq_of_lt (show i < m.window by omega))
    have hin := h _ _ m₁ happ hne h1 j (by rw [hindex, readCells_congr hc.nEvents]; exact hj)
    rwa [hc.length, length_events_reset] at hin
  · intro h pre post m₁ happ hne h1 j hj
    have hc := counted h1
    have hindex : nextIndex m₁ = pre.length % m.window := Counted.next (m := hmonitorReset now m) hw hw' hc
    have hcells := readCells_congr (hc.nEvents : m₁.nEvents = m.nEvents) (pre.length % m.window)
    rw [hindex, hcells] at hj
    have hpost := List.length_pos_of_ne_nil hne
    have hlt := Nat.mod_lt pre.length hw
    have hle := Nat.mod_le pre.length m.window
    rw [hc.length, length_events_reset]
    refine h _ ?_ j hj
    rw [happ, List.length_append]
    omega

/-- The read whose row is `i`, for rows that fit. -/
theorem holdsRead_age (hw : 0 < m.window) (hw' : m.window < 2 ^ 32) (hf : RowsFit m (min m.window as.length))
    (hv : ∀ a ∈ as, a.values.length = m.nEvents) (hr : hmonitorReads self as (hmonitorReset now m) = some m')
    {i : Nat} (hi : i < min m.window as.length) :
    ∃ a, as[as.length - 1 - (as.length - 1 - i) % m.window]? = some a ∧ HoldsRead m' i a := by
  obtain ⟨hc, hh⟩ := HoldsSlots.reset_reads hw hw' hf le_rfl hv hr
  have hfit : RowsFit m' (min m.window as.length) := (hf.reset now).of_counted hc
  have hlt : as.length - 1 - (as.length - 1 - i) % m.window < as.length := by omega
  have hslot : (RingBuffer.empty.pushAll m.window (as.map (readRow (hmonitorReset now m)))).slot i =
      (as.map (readRow (hmonitorReset now m)))[as.length - 1 - (as.length - 1 - i) % m.window]? := by
    have hage := RingBuffer.pushAll_slot_age (w := m.window)
      (show i < min m.window (as.map (readRow (hmonitorReset now m))).length by rwa [List.length_map])
    rwa [List.length_map] at hage
  rw [List.getElem?_map, List.getElem?_eq_getElem hlt] at hslot
  rw [List.getElem?_eq_getElem hlt]
  refine ⟨_, rfl, HoldsRead.of_row hfit hi ?_ ?_⟩
  · rw [hc.nEvents]
    exact hv _ (List.getElem_mem hlt)
  · rw [hh i hi _ hslot]
    unfold readRow
    rw [hc.refTime]

/-- Runs whose rows fit and whose `i`-th most recent read is in row `i`. -/
theorem ByAge.of_rows (hw : 0 < m.window) (hw' : m.window < 2 ^ 32) (ha : Allocated m) (hn : m.nEvents < 2 ^ 32)
    (hv : ∀ a ∈ as, a.values.length = m.nEvents) (hr : hmonitorReads self as (hmonitorReset now m) = some m')
    (hreset : u32 (m.window * m.nEvents + 1) ≤ m.events.length)
    (hfit : min m.window as.length * (m.nEvents + 1) ≤ m.events.length)
    (hage : ∀ i < min m.window (u32 as.length), (as.length - 1 - i) % m.window = i) :
    ByAge self (hmonitorReset now m) as m' := by
  refine ⟨(resetInside_reset_iff now).mpr hreset, (readsInside_iff hw hw' ha hn hr).mpr hfit, fun i hi => ?_⟩
  have hc := Counted.reads (m := hmonitorReset now m) hw hw' (Counted.reset now m) hr
  rw [Nat.zero_add] at hc
  have hwindow : m'.window = m.window := hc.window
  rw [hwindow, hc.total] at hi
  have hle : u32 as.length ≤ as.length := Nat.mod_le _ _
  have hlt : i < min m.window as.length := by omega
  obtain ⟨a, ha, hread⟩ := holdsRead_age hw hw' ⟨hfit, ha.indexed⟩ hv hr hlt
  rw [hage i hi] at ha
  exact ⟨a, ha, hread⟩

end Runs

/-- Addressed by age, the timestamps of a clock that does not go back do not increase. -/
theorem ByAge.timestamps {T M : Type} [DecidableEq T] {self : T} {m m' : Hmonitor T ℚ M} {as : List (Answer ℚ)}
    (h : ByAge self m as m') (hclock : as.Pairwise fun a b => a.now ≤ b.now) {i j : Nat} (hij : i ≤ j)
    (hj : j < min m'.window m'.total) :
    ∃ s u : ℚ, hmonitorGetTimestamp m' i = some s ∧ hmonitorGetTimestamp m' j = some u ∧ u ≤ s := by
  obtain ⟨a, ha, hrow⟩ := h.rows i (by omega)
  obtain ⟨b, hb, hrow'⟩ := h.rows j hj
  refine ⟨_, _, hrow.timestamp, hrow'.timestamp, ?_⟩
  have hnow : b.now ≤ a.now := by
    obtain ⟨hlt, rfl⟩ := List.getElem?_eq_some_iff.mp ha
    obtain ⟨hlt', rfl⟩ := List.getElem?_eq_some_iff.mp hb
    rcases Nat.lt_or_eq_of_le (show as.length - 1 - j ≤ as.length - 1 - i by omega) with hlt | heq
    · exact List.pairwise_iff_getElem.mp hclock _ _ hlt' _ hlt
    · simp only [heq, le_refl]
  exact Rat.intCast_le_intCast.mpr (Int.sub_le_sub_right hnow _)

/-! ## Exactly when -/

/-- The cells that the reset zeroes and the rows that `n` reads take fit the buffer, and the rows below the total lie in
the order of age. -/
def AgeFits (window nEvents n : Nat) : Prop :=
  u32 (window * nEvents + 1) ≤ u32 (window * u32 (nEvents + 1)) ∧
    min window n * (nEvents + 1) ≤ u32 (window * u32 (nEvents + 1)) ∧
    (u32 n = 0 ∨ (n - 1) % window = 0 ∧ (window ≤ 2 ∨ u32 n = 1))

/-- Row `i` has the age `i` for all rows below the total: only in one row, or in two of which the first is the last
read. -/
theorem rows_by_age_iff {window n : Nat} (hw : 0 < window) :
    (∀ i < min window (u32 n), (n - 1 - i) % window = i) ↔
      u32 n = 0 ∨ (n - 1) % window = 0 ∧ (window ≤ 2 ∨ u32 n = 1) := by
  have hle : u32 n ≤ n := Nat.mod_le _ _
  constructor
  · intro h
    rcases Nat.eq_zero_or_pos (u32 n) with h0 | h0
    · exact Or.inl h0
    have hfirst : (n - 1) % window = 0 := h 0 (by omega)
    refine Or.inr ⟨hfirst, ?_⟩
    by_contra hcond
    rw [not_or] at hcond
    -- the read before the last is in the last row, not in row 1
    have hsecond := h 1 (by omega)
    have hsucc : (n - 1) % window = ((n - 1 - 1) % window + 1) % window := by
      rw [Nat.mod_add_mod, Nat.sub_add_cancel (by omega)]
    rw [hfirst, hsecond, Nat.mod_eq_of_lt (by omega)] at hsucc
    omega
  · rintro (h0 | ⟨hfirst, hsmall⟩) i hi
    · omega
    · rcases Nat.eq_zero_or_pos i with rfl | hpos
      · exact hfirst
      · obtain rfl : window = 2 := by omega
        omega

/-- The `k`-th read at time `k`, all of whose values are 0. -/
def timedReads (nEvents n : Nat) : List (Answer ℚ) :=
  (List.range n).map fun (k : Nat) => ⟨true, List.replicate nEvents 0, k⟩

theorem length_timedReads (nEvents n : Nat) : (timedReads nEvents n).length = n :=
  (List.length_map _).trans List.length_range

theorem timedReads_mem {nEvents n : Nat} {a : Answer ℚ} (h : a ∈ timedReads nEvents n) :
    a.ok = true ∧ a.values.length = nEvents := by
  obtain ⟨k, -, rfl⟩ := List.mem_map.mp h
  exact ⟨rfl, List.length_replicate⟩

theorem timedReads_get {nEvents n k : Nat} (hk : k < n) :
    (timedReads nEvents n)[k]? = some ⟨true, List.replicate nEvents 0, k⟩ := by
  unfold timedReads
  rw [List.getElem?_map, List.getElem?_range hk]
  rfl

/-- Different times have different timestamps. -/
theorem timed_inj {j k : Nat} {refTime : Int}
    (h : some (Double.ofLong ((j : Int) - refTime) : ℚ) = some (Double.ofLong ((k : Int) - refTime))) : j = k := by
  have hint : (((j : Int) - refTime : Int) : ℚ) = (((k : Int) - refTime : Int) : ℚ) := Option.some.inj h
  have := Rat.intCast_inj.mp hint
  omega

/-- **All runs of `n` reads after a reset are addressed by age exactly when `AgeFits`.** -/
theorem byAge_iff {window nEvents n : Nat} (hw : 0 < window) (hw' : window < 2 ^ 32) (hn : nEvents < 2 ^ 32) :
    (∀ (T V M : Type) (_ : DecidableEq T) (_ : Double V) (self : T) (now : Int) (m m' : Hmonitor T V M)
      (as : List (Answer V)), m.window = window → m.nEvents = nEvents → Allocated m → as.length = n →
      (∀ a ∈ as, a.values.length = nEvents) → hmonitorReads self as (hmonitorReset now m) = some m' →
      ByAge self (hmonitorReset now m) as m') ↔ AgeFits window nEvents n := by
  constructor
  · intro h
    obtain ⟨m, hm⟩ : ∃ m : Hmonitor ℕ ℚ ℕ, newHmonitor 0 0 (windowSpec window nEvents) = some m := ⟨_, if_neg hw.ne'⟩
    obtain ⟨ha, ho, hwindow, hevents⟩ := newHmonitor_allocated hm
    have hwindow : m.window = window := hwindow
    have hevents : m.nEvents = nEvents := hevents
    have hlen := length_timedReads nEvents n
    obtain ⟨m', hr⟩ : ∃ m', hmonitorReads 0 (timedReads nEvents n) (hmonitorReset 0 m) = some m' :=
      hmonitorReads_some ho fun a ha => (timedReads_mem ha).1
    have hage := h ℕ ℚ ℕ _ _ 0 0 m m' _ hwindow hevents ha hlen (fun a ha => (timedReads_mem ha).2) hr
    subst hwindow hevents
    have hfit := (readsInside_iff hw hw' ha hn hr).mp hage.inside
    rw [hlen] at hfit
    refine ⟨ha ▸ (resetInside_reset_iff 0).mp hage.reset, ha ▸ hfit, (rows_by_age_iff hw).mp fun i hi => ?_⟩
    have hle : u32 n ≤ n := Nat.mod_le _ _
    have hlt : i < min m.window (timedReads m.nEvents n).length := by
      rw [hlen]
      omega
    have hc := Counted.reads (m := hmonitorReset 0 m) hw hw' (Counted.reset 0 m) hr
    rw [Nat.zero_add, hlen] at hc
    have hwindow : m'.window = m.window := hc.window
    -- the read that the header promises and the one that the row holds were made at the same time
    obtain ⟨a, ha₁, hrow₁⟩ := hage.rows i (by rw [hwindow, hc.total]; exact hi)
    obtain ⟨b, hb₁, hrow₂⟩ :=
      holdsRead_age hw hw' ⟨by rwa [hlen], ha.indexed⟩ (fun a ha => (timedReads_mem ha).2) hr hlt
    have hstamp := hrow₁.timestamp.symm.trans hrow₂.timestamp
    rw [hlen] at ha₁ hb₁
    rw [timedReads_get (by omega)] at ha₁ hb₁
    cases ha₁
    cases hb₁
    have hmod := Nat.mod_le (n - 1 - i) m.window
    have heq := timed_inj hstamp
    omega
  · rintro ⟨hreset, hfit, hage⟩ T V M _ _ self now m m' as rfl rfl ha rfl hv hr
    exact ByAge.of_rows hw hw' ha hn hv hr (ha ▸ hreset) (ha ▸ hfit) ((rows_by_age_iff hw).mpr hage)

/-- Three reads in a window of two rows: the last is in row 0, the one before it in row 1. -/
theorem byAge_three : ∃ m m' : Hmonitor ℕ ℚ ℕ, newHmonitor 0 0 (windowSpec 2 1) = some m ∧
    hmonitorReads 0 [⟨true, [5], 1⟩, ⟨true, [6], 2⟩, ⟨true, [7], 3⟩] (hmonitorReset 0 m) = some m' ∧
      ByAge 0 (hmonitorReset 0 m) [⟨true, [5], 1⟩, ⟨true, [6], 2⟩, ⟨true, [7], 3⟩] m' :=
  ⟨_, _, rfl, rfl, (byAge_iff (n := 3) (by decide) (by decide) (by decide : 1 < 2 ^ 32)).mpr
    ⟨by decide, by decide, Or.inr ⟨by decide, Or.inl (by decide)⟩⟩ ℕ ℚ ℕ _ _ 0 0 _ _ _ rfl rfl rfl rfl (by decide) rfl⟩

/-- After two reads in a window of two rows, row 0 is the first of them, not the last. -/
theorem two_reads_not_by_age : ∃ m m' : Hmonitor ℕ ℚ ℕ, newHmonitor 0 0 (windowSpec 2 1) = some m ∧
    hmonitorReads 0 [⟨true, [5], 1⟩, ⟨true, [6], 2⟩] (hmonitorReset 0 m) = some m' ∧
      hmonitorGetTimestamp m' 0 = some 1 ∧
        ¬ ByAge 0 (hmonitorReset 0 m) [⟨true, [5], 1⟩, ⟨true, [6], 2⟩] m' := by
  refine ⟨_, _, rfl, rfl, by decide, fun h => ?_⟩
  obtain ⟨a, ha, hrow⟩ := h.rows 0 (by decide)
  cases ha
  exact absurd hrow.timestamp (by decide)

end Hmon
