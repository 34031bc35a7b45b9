import Hmon.Monitor.Reduce

/-!
# The buffer of events (`new_hmonitor`, `hmonitor_reset`)

* `Hmonitor.index` : the cell of an event or a timestamp; `readCells`, `resetCells` : the cells that `hmonitor_read`
  and `hmonitor_reset` write, and no others (`hmonitorRead_frame`, `hmonitorReset_cell`);
* `ResetInside` : those of the reset are in the buffer;
* `BufferHolds` : the buffer has all cells of the window and every access is at its place;
* `bufferHolds_iff` : **it holds exactly when the number of its cells is an `unsigned`**;
* `Cleared` : the state of a new monitor; `cleared_iff` : **a reset clears a monitor of one row, and no other**.
-/

namespace Hmon

variable {T V M : Type}

/-! ## The cells of each function -/

/-- The cell that `hmonitor_get_event` reads; the column `n_events` is that of `hmonitor_get_timestamp`. -/
def Hmonitor.index (m : Hmonitor T V M) (row column : Nat) : Nat := u32 (row * u32 (m.nEvents + 1) + column)

/-- The cells that `hmonitor_read` writes when it takes `row`: the timestamp, then what the plugin fills. -/
def readCells (m : Hmonitor T V M) (row : Nat) : List Nat :=
  m.index row m.nEvents :: (List.range m.nEvents).map (u32 (row * u32 (m.nEvents + 1)) + ·)

/-- The cells that the loop of `hmonitor_reset` zeroes. -/
def resetCells (m : Hmonitor T V M) : List Nat := List.range (u32 (m.window * m.nEvents + 1))

theorem hmonitorGetEvent_eq [DecidableEq T] [Double V] (m : Hmonitor T V M) (row event : Nat) :
    hmonitorGetEvent m row event = m.events[m.index row event]? := rfl

theorem hmonitorGetTimestamp_eq [DecidableEq T] [Double V] (m : Hmonitor T V M) (i : Nat) :
    hmonitorGetTimestamp m i = m.events[m.index i m.nEvents]? := rfl

theorem hmonitorReset_cell [Double V] (now : Int) (m : Hmonitor T V M) (j : Nat) :
    (hmonitorReset now m).events[j]? =
      if j ∈ resetCells m then m.events[j]?.map fun _ => 0 else m.events[j]? := by
  show ((m.events.take (u32 (m.window * m.nEvents + 1))).map (fun _ => (0 : V)) ++
    m.events.drop (u32 (m.window * m.nEvents + 1)))[j]? = _
  simp only [resetCells, List.mem_range]
  generalize u32 (m.window * m.nEvents + 1) = z
  split_ifs with hj
  · by_cases hl : j < m.events.length
    · rw [List.getElem?_append_left (by rw [List.length_map, List.length_take]; omega), List.getElem?_map,
        List.getElem?_take, if_pos hj]
    · have hout : m.events[j]? = none := List.getElem?_eq_none (not_lt.mp hl)
      rw [hout, List.getElem?_eq_none]
      · rfl
      · simp only [List.length_append, List.length_map, List.length_take, List.length_drop]
        omega
  · rw [List.getElem?_append_right (by rw [List.length_map, List.length_take]; omega), List.length_map,
      List.length_take, List.getElem?_drop]
    by_cases hl : z ≤ m.events.length
    · rw [Nat.min_eq_left hl, Nat.add_sub_cancel' (not_lt.mp hj)]
    · rw [List.getElem?_eq_none (by omega), List.getElem?_eq_none (by omega)]

/-- The loop of `hmonitor_reset` writes inside the buffer. -/
def ResetInside (m : Hmonitor T V M) : Prop := ∀ j ∈ resetCells m, j < m.events.length

theorem resetInside_iff {m : Hmonitor T V M} :
    ResetInside m ↔ u32 (m.window * m.nEvents + 1) ≤ m.events.length := by
  unfold ResetInside resetCells
  simp only [List.mem_range]
  constructor
  · intro h
    by_contra hlt
    exact lt_irrefl _ (h m.events.length (not_le.mp hlt))
  · intro h j hj
    exact hj.trans_le h

/-- A read changes no other cell. -/
theorem hmonitorRead_frame [DecidableEq T] [Double V] {self : T} {a : Answer V} {m : Hmonitor T V M} {j : Nat}
    (hj : j ∉ readCells m (nextIndex m)) : (hmonitorRead self a m).mon.events[j]? = m.events[j]? := by
  simp only [readCells, List.mem_cons, List.mem_map, List.mem_range, not_or, not_exists, not_and] at hj
  obtain ⟨hstamp, hevents⟩ := hj
  have hset : (nextRow a.now m).events[j]? = m.events[j]? := List.getElem?_set_ne (Ne.symm hstamp)
  have hout : j < u32 (nextIndex m * u32 (m.nEvents + 1)) ∨
      u32 (nextIndex m * u32 (m.nEvents + 1)) + (a.values.take m.nEvents).length ≤ j := by
    rw [List.length_take]
    by_contra hin
    exact hevents (j - u32 (nextIndex m * u32 (m.nEvents + 1))) (by omega) (by omega)
  unfold hmonitorRead
  split_ifs
  · exact hset
  · exact (getElem?_writeCells_of_out hout).trans hset
  · rfl

/-! ## Rows inside the buffer -/

/-- The first cell behind `A` cells, as long as some row has it. -/
theorem overflow_cell {A rows n : Nat} (hA : A < 2 ^ 32) (hn : n < 2 ^ 32) (hz : n + 1 = 2 ^ 32 → A = 0)
    (h : A < rows * (n + 1)) :
    A / (n + 1) < rows ∧ A % (n + 1) ≤ n ∧ u32 (A / (n + 1) * u32 (n + 1) + A % (n + 1)) = A ∧
      u32 (A / (n + 1) * u32 (n + 1)) + A % (n + 1) = A := by
  have hdm := Nat.div_add_mod' A (n + 1)
  refine ⟨(Nat.div_lt_iff_lt_mul (Nat.succ_pos n)).mpr h, Nat.le_of_lt_succ (Nat.mod_lt _ (Nat.succ_pos n)), ?_⟩
  by_cases hfull : n + 1 = 2 ^ 32
  · rw [hz hfull, Nat.zero_div, Nat.zero_mod, Nat.zero_mul]
    exact ⟨rfl, rfl⟩
  · have hid : u32 (n + 1) = n + 1 := Nat.mod_eq_of_lt (by omega)
    have hrow : u32 (A / (n + 1) * (n + 1)) = A / (n + 1) * (n + 1) := Nat.mod_eq_of_lt (by omega)
    rw [hid, hrow, hdm]
    exact ⟨Nat.mod_eq_of_lt hA, rfl⟩

theorem Allocated.full {m : Hmonitor T V M} (h : Allocated m) (hfull : m.nEvents + 1 = 2 ^ 32) :
    m.events.length = 0 := by
  rw [h, hfull]
  exact congrArg u32 (Nat.mul_zero m.window)

/-- The first `rows` rows of a window stay inside exactly when the buffer has as many cells. -/
theorem readCells_inside_iff {m : Hmonitor T V M} (ha : Allocated m) (hn : m.nEvents < 2 ^ 32) (rows : Nat) :
    (∀ i < rows, ∀ j ∈ readCells m i, j < m.events.length) ↔ rows * (m.nEvents + 1) ≤ m.events.length := by
  simp only [readCells, List.forall_mem_cons, List.forall_mem_map, List.mem_range]
  constructor
  · intro h
    by_contra hout
    obtain ⟨hr, hc, hstamp, hevent⟩ := overflow_cell ha.indexed hn ha.full (not_le.mp hout)
    obtain ⟨h1, h2⟩ := h _ hr
    rcases Nat.lt_or_eq_of_le hc with hc | hc
    · exact absurd (h2 _ hc) (by rw [hevent]; exact lt_irrefl _)
    · rw [hc] at hstamp
      exact absurd h1 hstamp.ge.not_gt
  · intro h i hi
    have hlt := h.trans_lt ha.indexed
    have hrow : (i + 1) * (m.nEvents + 1) ≤ rows * (m.nEvents + 1) := Nat.mul_le_mul_right _ hi
    rw [Nat.succ_mul] at hrow
    have hbase : u32 (i * u32 (m.nEvents + 1)) = i * (m.nEvents + 1) := offset_eq hlt hi (Nat.zero_le _)
    have hstamp : m.index i m.nEvents = i * (m.nEvents + 1) + m.nEvents := offset_eq hlt hi le_rfl
    rw [hbase, hstamp]
    exact ⟨by omega, fun e he => by omega⟩

/-! ## A buffer that is large enough -/

/-- The cells are the intended ones, all inside the buffer. -/
def Hmonitor.Placed (m : Hmonitor T V M) (cells intended : List Nat) : Prop :=
  cells = intended ∧ ∀ j ∈ cells, j < m.events.length

/-- The buffer has `window * (n_events + 1)` cells, and each function accesses those it means. -/
structure BufferHolds (m : Hmonitor T V M) : Prop where
  size : m.events.length = m.window * (m.nEvents + 1)
  reset : m.Placed (resetCells m) (List.range (m.window * m.nEvents + 1))
  read : ∀ row < m.window, m.Placed (readCells m row)
    ((row * (m.nEvents + 1) + m.nEvents) :: (List.range m.nEvents).map (row * (m.nEvents + 1) + ·))
  get : ∀ row < m.window, ∀ column ≤ m.nEvents,
    m.Placed [m.index row column] [row * (m.nEvents + 1) + column]

theorem BufferHolds.of_rowsFit {m : Hmonitor T V M} (hw : 0 < m.window) (ha : Allocated m) (hn : m.nEvents < 2 ^ 32)
    (hf : RowsFit m m.window) : BufferHolds m := by
  have hsize : m.events.length = m.window * (m.nEvents + 1) := le_antisymm ha.le hf.inside
  have hbound : m.window * m.nEvents + 1 ≤ m.window * (m.nEvents + 1) := by
    rw [Nat.mul_succ]
    exact Nat.add_le_add_left hw _
  have hzeroed : u32 (m.window * m.nEvents + 1) = m.window * m.nEvents + 1 :=
    Nat.mod_eq_of_lt (hbound.trans_lt hf.lt)
  have hread := (readCells_inside_iff ha hn m.window).mpr hf.inside
  refine ⟨hsize, ⟨congrArg List.range hzeroed, ?_⟩, fun row hrow => ⟨?_, hread row hrow⟩, fun row hrow c hc => ?_⟩
  · intro j hj
    have hlt : j < m.window * m.nEvents + 1 := hzeroed ▸ List.mem_range.mp hj
    rw [hsize]
    exact hlt.trans_le hbound
  · have hbase : u32 (row * u32 (m.nEvents + 1)) = row * (m.nEvents + 1) := offset_eq hf.lt hrow (Nat.zero_le _)
    unfold readCells Hmonitor.index
    rw [offset_eq hf.lt hrow le_rfl, hbase]
  · have hindex : m.index row c = row * (m.nEvents + 1) + c := offset_eq hf.lt hrow hc
    refine ⟨congrArg (fun j => [j]) hindex, fun j hj => ?_⟩
    have hle : (row + 1) * (m.nEvents + 1) ≤ m.window * (m.nEvents + 1) := Nat.mul_le_mul_right _ hrow
    rw [Nat.succ_mul] at hle
    rw [List.mem_singleton.mp hj, hindex, hsize]
    omega

/-- **The buffer that `new_hmonitor` allocates is large enough, and every access is at its place, exactly when the
number of its cells is an `unsigned`.** -/
theorem bufferHolds_iff [DecidableEq T] [Double V] {self : T} {now : Int} {s : Spec V M} {m₀ m : Hmonitor T V M}
    (hn : s.addedEvents < 2 ^ 32) (hnew : newHmonitor self now s = some m₀) (hm : SameBuffers m₀ m) :
    BufferHolds m ↔ s.window * (s.addedEvents + 1) < 2 ^ 32 := by
  obtain ⟨ha, -, hwindow, hevents⟩ := newHmonitor_allocated hnew
  have ha' : Allocated m := by
    unfold Allocated
    rw [hm.events, hm.window, hm.nEvents]
    exact ha
  rw [← hwindow, ← hevents, ← hm.window, ← hm.nEvents]
  constructor
  · intro h
    rw [← h.size]
    exact ha'.indexed
  · intro h
    have hw : 0 < m.window := by
      rw [hm.window, hwindow]
      refine Nat.pos_of_ne_zero fun h0 => ?_
      unfold newHmonitor at hnew
      rw [if_pos h0] at hnew
      cases hnew
    exact BufferHolds.of_rowsFit hw ha' (by rw [hm.nEvents, hevents]; exact hn) (ha'.rowsFit hw h)

theorem bufferHolds_two : BufferHolds ((newHmonitor 0 0 (windowSpec 2 1)).get rfl : Hmonitor ℕ ℚ ℕ) :=
  (bufferHolds_iff (s := windowSpec 2 1) (by decide) (Option.some_get _).symm ⟨rfl, rfl, rfl, rfl, rfl⟩).mpr (by decide)

/-- `WINDOW:=-1` is a window of `2 ^ 32 - 1` rows: with one event, the buffer has `2 ^ 32 - 2` cells of the
`2 ^ 33 - 2`. -/
theorem window_minus_one : ∃ m : Hmonitor ℕ ℚ ℕ, newHmonitor 0 0 (windowSpec 4294967295 1) = some m ∧
    ¬ BufferHolds m := by
  obtain ⟨m, hm⟩ : ∃ m : Hmonitor ℕ ℚ ℕ, newHmonitor 0 0 (windowSpec 4294967295 1) = some m := ⟨_, if_neg (by decide)⟩
  obtain ⟨ha, -, hwindow, hevents⟩ := newHmonitor_allocated hm
  refine ⟨m, hm, fun h => ?_⟩
  have hsize := h.size
  rw [ha, hwindow, hevents] at hsize
  exact absurd hsize (by decide)

/-! ## What a reset clears -/

/-- The state of a new monitor: no row holds a value, and nothing of the buffer is left from before. -/
structure Cleared [DecidableEq T] [Double V] (m : Hmonitor T V M) : Prop where
  event : ∀ row < m.window, ∀ e < m.nEvents, hmonitorGetEvent m row e = some 0
  timestamp : ∀ row < m.window, hmonitorGetTimestamp m row = some 0
  total : m.total = 0
  last : m.last = m.window - 1
  samples : m.samples = List.replicate m.nSamples 0
  buffer : ∀ v ∈ m.events, v = 0

/-- A new monitor is a reset of the memory it was allocated in. -/
theorem newHmonitor_reset [Double V] {self : T} {now : Int} {s : Spec V M} {m : Hmonitor T V M}
    (h : newHmonitor self now s = some m) :
    ∃ m₀ : Hmonitor T V M, m = hmonitorReset now m₀ ∧ Allocated m₀ ∧ m₀.window = s.window ∧
      m₀.nEvents = s.addedEvents ∧ ∀ v ∈ m₀.events, ∃ i, v = s.raw i := by
  unfold newHmonitor at h
  by_cases hw : s.window = 0
  · rw [if_pos hw] at h
    cases h
  rw [if_neg hw, Option.some.injEq] at h
  refine ⟨_, h.symm, ?_, rfl, rfl, fun v hv => ?_⟩
  · unfold Allocated
    rw [List.length_map, List.length_range]
  · obtain ⟨i, -, rfl⟩ := List.mem_map.mp hv
    exact ⟨i, rfl⟩

section Clear
variable [DecidableEq T] [Double V] {m : Hmonitor T V M}

/-- The only row of a window of one row is cleared with its timestamp. -/
theorem Cleared.of_one_row (now : Int) (ha : Allocated m) (hw : m.window = 1) (hn : m.nEvents + 1 < 2 ^ 32) :
    Cleared (hmonitorReset now m) := by
  have hid : u32 (m.nEvents + 1) = m.nEvents + 1 := Nat.mod_eq_of_lt hn
  have hlen : m.events.length = m.nEvents + 1 := by
    rw [ha, hw, Nat.one_mul, hid]
    exact hid
  have hcell : ∀ j < m.events.length, (hmonitorReset now m).events[j]? = some 0 := by
    intro j hj
    have hmem : j ∈ resetCells m := by
      unfold resetCells
      rw [hw, Nat.one_mul, hid, List.mem_range, ← hlen]
      exact hj
    rw [hmonitorReset_cell, if_pos hmem, List.getElem?_eq_getElem hj]
    rfl
  have hindex : ∀ column ≤ m.nEvents, m.index 0 column = column := by
    intro column hc
    unfold Hmonitor.index
    rw [Nat.zero_mul, Nat.zero_add]
    exact Nat.mod_eq_of_lt (by omega)
  refine ⟨fun row hrow e he => ?_, fun row hrow => ?_, rfl, rfl, rfl, fun v hv => ?_⟩
  · have h0 : row = 0 := Nat.lt_one_iff.mp (hrow.trans_eq hw)
    have he : e < m.nEvents := he
    show (hmonitorReset now m).events[m.index row e]? = _
    rw [h0, hindex e he.le]
    exact hcell e (by omega)
  · have h0 : row = 0 := Nat.lt_one_iff.mp (hrow.trans_eq hw)
    show (hmonitorReset now m).events[m.index row m.nEvents]? = _
    rw [h0, hindex _ le_rfl]
    exact hcell _ (by omega)
  · obtain ⟨j, hj⟩ := List.getElem?_of_mem hv
    have hlt : j < (hmonitorReset now m).events.length := (List.getElem?_eq_some_iff.mp hj).1
    rw [length_events_reset] at hlt
    rw [hcell j hlt] at hj
    exact (Option.some.inj hj).symm

/-- In any other window a row has a cell that is not cleared, or not in the buffer. -/
theorem not_cleared (now : Int) (ha : Allocated m) (hw : 0 < m.window) (hn : m.nEvents < 2 ^ 32)
    (hdirty : ∀ v ∈ m.events, v ≠ 0) (h : ¬ (m.window = 1 ∧ m.nEvents + 1 < 2 ^ 32)) :
    ¬ Cleared (hmonitorReset now m) := by
  intro hc
  by_cases hf : m.window * (m.nEvents + 1) < 2 ^ 32
  · -- the loop stops before the timestamp of the last row
    have hsize : m.events.length = m.window * (m.nEvents + 1) := le_antisymm ha.le (ha.rowsFit hw hf).inside
    have hbound : m.window * m.nEvents + 1 < m.window * (m.nEvents + 1) := by
      have hne : m.window ≠ 1 := fun h1 => h ⟨h1, by rwa [h1, Nat.one_mul] at hf⟩
      rw [Nat.mul_succ]
      omega
    have hzeroed : u32 (m.window * m.nEvents + 1) = m.window * m.nEvents + 1 := Nat.mod_eq_of_lt (hbound.trans hf)
    have hin : m.window * m.nEvents + 1 < m.events.length := hsize ▸ hbound
    have hout : m.window * m.nEvents + 1 ∉ resetCells m := by
      unfold resetCells
      rw [hzeroed, List.mem_range]
      exact lt_irrefl _
    have hkept : (hmonitorReset now m).events[m.window * m.nEvents + 1]? = some m.events[m.window * m.nEvents + 1] := by
      rw [hmonitorReset_cell, if_neg hout, List.getElem?_eq_getElem hin]
    exact hdirty _ (List.getElem_mem hin) (hc.buffer _ (List.mem_of_getElem? hkept))
  · obtain ⟨hrow, hcolumn, hcell, -⟩ :=
      overflow_cell ha.indexed hn ha.full (ha.indexed.trans_le (not_lt.mp hf))
    have hnone : (hmonitorReset now m).events[m.events.length]? = none :=
      List.getElem?_eq_none (length_events_reset now m).le
    rcases Nat.lt_or_eq_of_le hcolumn with hlt | heq
    · have hzero : (hmonitorReset now m).events[m.index _ _]? = some 0 := hc.event _ hrow _ hlt
      rw [show m.index _ _ = m.events.length from hcell, hnone] at hzero
      cases hzero
    · have hzero : (hmonitorReset now m).events[m.index _ m.nEvents]? = some 0 := hc.timestamp _ hrow
      rw [heq] at hcell
      rw [show m.index _ _ = m.events.length from hcell, hnone] at hzero
      cases hzero

end Clear

/-- The request for a monitor whose memory holds no zero. -/
def dirtySpec (window nEvents : Nat) : Spec ℚ ℕ := { windowSpec window nEvents with raw := fun _ => 1 }

/-- **A reset, also that of a new monitor, clears every row exactly when the window has one row (whose number of
cells is an `unsigned`).** -/
theorem cleared_iff {window nEvents : Nat} (hw : 0 < window) (hn : nEvents < 2 ^ 32) :
    ((∀ (T V M : Type) (_ : DecidableEq T) (_ : Double V) (now : Int) (m : Hmonitor T V M), m.window = window →
        m.nEvents = nEvents → Allocated m → Cleared (hmonitorReset now m)) ↔
      window = 1 ∧ nEvents + 1 < 2 ^ 32) ∧
    ((∀ (T V M : Type) (_ : DecidableEq T) (_ : Double V) (self : T) (now : Int) (s : Spec V M) (m : Hmonitor T V M),
        s.window = window → s.addedEvents = nEvents → newHmonitor self now s = some m → Cleared m) ↔
      window = 1 ∧ nEvents + 1 < 2 ^ 32) := by
  obtain ⟨m, hm⟩ : ∃ m : Hmonitor ℕ ℚ ℕ, newHmonitor 0 0 (dirtySpec window nEvents) = some m := ⟨_, if_neg hw.ne'⟩
  obtain ⟨m₀, rfl, ha, hwindow, hevents, hraw⟩ := newHmonitor_reset hm
  have hwindow : m₀.window = window := hwindow
  have hevents : m₀.nEvents = nEvents := hevents
  have hdirty : ∀ v ∈ m₀.events, v ≠ 0 := by
    intro v hv
    obtain ⟨i, rfl⟩ := hraw v hv
    exact one_ne_zero
  have hnot : ¬ (window = 1 ∧ nEvents + 1 < 2 ^ 32) → ¬ Cleared (hmonitorReset 0 m₀) := by
    rw [← hwindow, ← hevents]
    exact not_cleared 0 ha (hwindow ▸ hw) (hevents ▸ hn) hdirty
  refine ⟨⟨fun h => ?_, ?_⟩, ⟨fun h => ?_, ?_⟩⟩
  · by_contra hcond
    exact hnot hcond (h ℕ ℚ ℕ _ _ 0 m₀ hwindow hevents ha)
  · rintro ⟨h1, hfit⟩ T V M _ _ now m rfl rfl ha
    exact Cleared.of_one_row now ha h1 hfit
  · by_contra hcond
    exact hnot hcond (h ℕ ℚ ℕ _ _ 0 0 _ _ rfl rfl hm)
  · rintro ⟨h1, hfit⟩ T V M _ _ self now s m rfl rfl hnew
    obtain ⟨m₀, rfl, ha, hwindow, hevents, -⟩ := newHmonitor_reset hnew
    exact Cleared.of_one_row now ha (hwindow.trans h1) (by rwa [hevents])

/-- One row of three events in memory that holds no zero: new it is clear, and again after two reads and a reset. -/
theorem cleared_one : ∃ m m' : Hmonitor ℕ ℚ ℕ, newHmonitor 0 0 (dirtySpec 1 3) = some m ∧ Cleared m ∧
    hmonitorReads 0 [⟨true, [5, 6, 7], 1⟩, ⟨true, [8, 9, 10], 2⟩] m = some m' ∧ m'.events = [8, 9, 10, 2] ∧
      Cleared (hmonitorReset 5 m') :=
  have clears := cleared_iff (Nat.succ_pos 0) (by decide : 3 < 2 ^ 32)
  ⟨_, _, rfl, (clears.2.mpr (by decide)) ℕ ℚ ℕ _ _ 0 0 (dirtySpec 1 3) _ rfl rfl rfl, rfl, by decide,
    (clears.1.mpr (by decide)) ℕ ℚ ℕ _ _ 5 _ rfl rfl rfl⟩

/-- Two rows of one event, both read: after a reset the second timestamp is still that of the last read. -/
theorem reset_keeps_timestamp : ∃ m m' : Hmonitor ℕ ℚ ℕ, newHmonitor 0 0 (windowSpec 2 1) = some m ∧
    hmonitorReads 0 [⟨true, [5], 1⟩, ⟨true, [6], 2⟩] m = some m' ∧
      hmonitorGetTimestamp (hmonitorReset 3 m') 1 = some 2 ∧ ¬ Cleared (hmonitorReset 3 m') := by
  refine ⟨_, _, rfl, rfl, by decide, fun h => ?_⟩
  exact absurd (h.timestamp 1 (by decide)) (by decide)

end Hmon
