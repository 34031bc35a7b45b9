import Hmon.Lib.Stats
import Hmon.Monitor.Age
import Hmon.Monitor.Values

/-!
# Sum, mean and variance of the window (`hmonitor_events_sum`, `hmonitor_events_mean`, `hmonitor_events_var`)

The doubles are exact rationals.

* `recentValues` : the values of an event in the last reads that a window holds;
* `column_perm_recent` : the rows that a reducer scans hold them in some order;
* `WindowStatistics` : each reducer stores its statistic of them, and neither the reset nor a read leaves the buffer;
* `windowStatistics_iff` : **this holds exactly when what the reset zeroes and the rows of the reads fit the buffer**.
-/

namespace Hmon
open Lib

variable {T M : Type} [DecidableEq T]

/-- The values of the event `c` in the last `window` reads, oldest first. -/
def recentValues (window : Nat) (as : List (Answer ℚ)) (c : Nat) : List ℚ :=
  (as.drop (as.length - window)).map fun a => a.values.getD c 0

/-- What the reducers store for each event after the reset that gave `m` and the reads `as`. -/
structure WindowStatistics (t : T) (m : Hmonitor T ℚ M) (as : List (Answer ℚ)) (m' : Hmonitor T ℚ M) : Prop where
  reset : ResetInside m
  inside : ReadsInside t as m
  sum : ∀ c < m.nEvents, (reduceWith .sum m').samples[c]? = some (recentValues m.window as c).sum
  mean : ∀ c < m.nEvents, (reduceWith .mean m').samples[c]? = some (mean (recentValues m.window as c))
  var : ∀ c < m.nEvents, (reduceWith .var m').samples[c]? = some (variance (recentValues m.window as c))
  var_nonneg : ∀ c < m.nEvents, 0 ≤ variance (recentValues m.window as c)
  var_add_const : ∀ c < m.nEvents, ∀ k,
    variance ((recentValues m.window as c).map (· + k)) = variance (recentValues m.window as c)

section Runs
variable {self : T} {now : Int} {m m' : Hmonitor T ℚ M} {as : List (Answer ℚ)}

/-- Reads leave the samples alone. -/
theorem hmonitorReads_samples (hr : hmonitorReads self as m = some m') : m'.samples = m.samples := by
  induction as generalizing m with
  | nil =>
    cases hr
    rfl
  | cons a as ih =>
    obtain ⟨hret, hr⟩ := hmonitorReads_cons.mp hr
    rw [ih hr, (hmonitorRead_cases hret).2.2]
    rfl

omit [DecidableEq T] in
/-- The value that a reducer reads is the one that the row holds. -/
theorem value_row {rows r c : Nat} (hf : RowsFit m rows) (hr : r < rows) (hc : c < m.nEvents) :
    m.modelSizes.value m.events r c = ((hmonitorRow m r)[c]?.join).getD 0 := by
  have hbase : m.modelSizes.getEvents r = r * (m.nEvents + 1) := offset_eq hf.lt hr (Nat.zero_le _)
  unfold Sizes.value
  rw [hbase, hmonitorRow_eq hf.lt hr, List.getElem?_map, List.getElem?_range (Nat.lt_succ_of_lt hc),
    List.getD_eq_getElem?_getD]
  rfl

/-- The rows below the total hold the last reads, in the order of the ring. -/
theorem column_perm_recent (hw : 0 < m.window) (hw' : m.window < 2 ^ 32) (hf : RowsFit m (min m.window as.length))
    (hne : as ≠ []) (hlen : as.length < 2 ^ 32) (hv : ∀ a ∈ as, a.values.length = m.nEvents)
    (hr : hmonitorReads self as (hmonitorReset now m) = some m') {c : Nat} (hc : c < m.nEvents) :
    ((List.range m'.modelSizes.rows).map fun r => m'.modelSizes.value m'.events r c).Perm
      (recentValues m.window as c) := by
  have hcount := (HoldsSlots.reset_reads hw hw' hf le_rfl hv hr).1
  have hkeep := KeepsRecent.of_rowsFit hw hw' hf hne hlen hv hr
  have hrows : m'.modelSizes.rows = min m.window as.length := by
    show (if m'.window < m'.total then m'.window else m'.total) = _
    rw [hkeep.total, show m'.window = m.window from hcount.window]
    split_ifs <;> omega
  have hcell : (List.range m'.modelSizes.rows).map (fun r => m'.modelSizes.value m'.events r c) =
      ((List.range (min m.window as.length)).map (hmonitorRow m')).map fun row => (row[c]?.join).getD 0 := by
    rw [hrows, List.map_map]
    refine List.map_congr_left fun r hmem => ?_
    exact value_row ((hf.reset now).of_counted hcount) (List.mem_range.mp hmem) (hcount.nEvents ▸ hc)
  have hrecent : recentValues m.window as c = ((as.drop (as.length - m.window)).map fun a =>
      (readRow (hmonitorReset now m) a).map some).map fun row => (row[c]?.join).getD 0 := by
    unfold recentValues
    rw [List.map_map]
    refine List.map_congr_left fun a ha => ?_
    have hlt : c < a.values.length := hv a (List.mem_of_mem_drop ha) ▸ hc
    show _ = ((((readRow (hmonitorReset now m) a).map some)[c]?).join).getD 0
    unfold readRow
    rw [List.getElem?_map, List.getElem?_append_left hlt, List.getD_eq_getElem?_getD, List.getElem?_eq_getElem hlt]
    rfl
  rw [hcell, hrecent]
  exact hkeep.rows.map _

omit [DecidableEq T] in
theorem overRows_sum (d : Sizes) (events : List ℚ) (g : ℚ → ℚ) (c k : Nat) :
    overRows d events 0 (fun a v => a + g v) c k = ((List.range k).map fun r => g (d.value events r c)).sum :=
  (foldl_add_eq_sum (fun r => g (d.value events r c)) 0 (List.range k)).trans (zero_add _)

omit [DecidableEq T] in
theorem ofLong_natCast (n : Nat) : (Double.ofLong (n : Int) : ℚ) = n := Int.cast_natCast n

/-- The statistics of a column from those of the list that its rows hold. -/
theorem reduceWith_statistics {c : Nat} {xs : List ℚ} (hc : c < m.nEvents) (hs : m.samples.length = m.nEvents)
    (hne : xs ≠ []) (hperm : ((List.range m.modelSizes.rows).map fun r => m.modelSizes.value m.events r c).Perm xs) :
    (reduceWith .sum m).samples[c]? = some xs.sum ∧ (reduceWith .mean m).samples[c]? = some (mean xs) ∧
      (reduceWith .var m).samples[c]? = some (variance xs) := by
  have hsum : overRows m.modelSizes m.events 0 (fun a v => a + v) c m.modelSizes.rows = xs.sum :=
    (overRows_sum m.modelSizes m.events id c m.modelSizes.rows).trans hperm.sum_eq
  have hsquares : overRows m.modelSizes m.events 0 (fun a v => a + v * v) c m.modelSizes.rows =
      (xs.map fun x => x * x).sum := by
    refine (overRows_sum m.modelSizes m.events (fun v => v * v) c m.modelSizes.rows).trans ?_
    have hsq := (hperm.map fun x => x * x).sum_eq
    rwa [List.map_map] at hsq
  have hrows : (Double.ofLong (m.modelSizes.rows : Int) : ℚ) = xs.length := by
    rw [ofLong_natCast, ← hperm.length_eq, List.length_map, List.length_range]
  have hlength : (xs.length : ℚ) ≠ 0 := Nat.cast_ne_zero.mpr (List.length_pos_of_ne_nil hne).ne'
  have hcs : c < m.samples.length := hs ▸ hc
  refine ⟨?_, ?_, ?_⟩
  · rw [reduceWith_samples, ← hsum]
    exact (foldRows_sample 0 (fun a v => a + v) m.modelSizes rfl rfl c hc).sample hcs
  · rw [reduceWith_samples]
    refine ((mean_sample m.modelSizes rfl rfl c hc).sample hcs).trans (congrArg some ?_)
    rw [hrows]
    exact congrArg (· / (xs.length : ℚ)) hsum
  · rw [reduceWith_samples]
    refine (var_sample rfl rfl List.length_replicate List.length_replicate hc hcs hcs).trans (congrArg some ?_)
    show columnVar m.modelSizes m.events c = _
    have hone : (Double.ofLong 1 : ℚ) = 1 := Int.cast_one
    unfold columnVar
    simp only [hsum, hsquares, hrows, hone]
    exact (variance_eq hlength).symm

/-- **After every run of reads from a reset, each reducer stores its statistic of the last reads exactly when the cells
that the reset zeroes and the rows of the reads fit the buffer.** -/
theorem windowStatistics_iff (hw : 0 < m.window) (hw' : m.window < 2 ^ 32) (hn : m.nEvents < 2 ^ 32)
    (ha : Allocated m) (hs : m.nSamples = m.nEvents) (hne : 1 ≤ as.length) (hlen : as.length < 2 ^ 32)
    (hv : ∀ a ∈ as, a.values.length = m.nEvents) (hr : hmonitorReads self as (hmonitorReset now m) = some m') :
    WindowStatistics self (hmonitorReset now m) as m' ↔
      u32 (m.window * m.nEvents + 1) ≤ u32 (m.window * u32 (m.nEvents + 1)) ∧
        min m.window as.length * (m.nEvents + 1) ≤ u32 (m.window * u32 (m.nEvents + 1)) := by
  rw [← ha, ← readsInside_iff hw hw' ha hn hr, ← resetInside_reset_iff now]
  refine ⟨fun h => ⟨h.reset, h.inside⟩, fun ⟨hreset, hinside⟩ => ?_⟩
  have hf : RowsFit m (min m.window as.length) := ⟨(readsInside_iff hw hw' ha hn hr).mp hinside, ha.indexed⟩
  have hcount := (HoldsSlots.reset_reads hw hw' hf le_rfl hv hr).1
  have hsamples : m'.samples.length = m'.nEvents := by
    rw [hmonitorReads_samples hr, hcount.nEvents]
    exact List.length_replicate.trans hs
  have hrecent : ∀ c, recentValues m.window as c ≠ [] := by
    intro c hnil
    have hzero := congrArg List.length hnil
    simp only [recentValues, List.length_map, List.length_drop, List.length_nil] at hzero
    omega
  have hlength : ∀ c, ((recentValues m.window as c).length : ℚ) ≠ 0 := fun c =>
    Nat.cast_ne_zero.mpr (List.length_pos_of_ne_nil (hrecent c)).ne'
  have hstat := fun c (hc : c < m.nEvents) => reduceWith_statistics (hcount.nEvents ▸ hc) hsamples (hrecent c)
    (column_perm_recent hw hw' hf (List.length_pos_iff.mp hne) hlen hv hr hc)
  exact ⟨hreset, hinside, fun c hc => (hstat c hc).1, fun c hc => (hstat c hc).2.1, fun c hc => (hstat c hc).2.2,
    fun c _ => variance_nonneg _, fun c _ k => variance_add_const (hlength c) k⟩

end Runs

theorem windowStatistics_three : ∃ m m' : Hmonitor ℕ ℚ ℕ, newHmonitor 0 0 (windowSpec 2 1) = some m ∧
    hmonitorReads 0 [⟨true, [5], 1⟩, ⟨true, [6], 2⟩, ⟨true, [8], 3⟩] (hmonitorReset 0 m) = some m' ∧
      WindowStatistics 0 (hmonitorReset 0 m) [⟨true, [5], 1⟩, ⟨true, [6], 2⟩, ⟨true, [8], 3⟩] m' :=
  ⟨_, _, rfl, rfl, (windowStatistics_iff (m := (newHmonitor 0 0 (windowSpec 2 1)).get rfl) (by decide) (by decide)
    (by decide) rfl rfl (by decide) (by decide) (by decide) rfl).mpr (by decide)⟩

/-- 65536 rows of 65536 events: the timestamp of the first read is outside the buffer, and the reducers go past it. -/
theorem statistics_overflow : ∃ m m' : Hmonitor ℕ ℚ ℕ, newHmonitor 0 0 (windowSpec 65536 65536) = some m ∧
    hmonitorReads 0 (timedReads 65536 1) (hmonitorReset 0 m) = some m' ∧
      ¬ WindowStatistics 0 (hmonitorReset 0 m) (timedReads 65536 1) m' := by
  obtain ⟨m, hm⟩ : ∃ m : Hmonitor ℕ ℚ ℕ, newHmonitor 0 0 (windowSpec 65536 65536) = some m := ⟨_, if_neg (by decide)⟩
  obtain ⟨ha, ho, hwindow, hevents⟩ := newHmonitor_allocated hm
  have hwindow : m.window = 65536 := hwindow
  have hevents : m.nEvents = 65536 := hevents
  obtain ⟨m', hr⟩ : ∃ m', hmonitorReads 0 (timedReads 65536 1) (hmonitorReset 0 m) = some m' :=
    hmonitorReads_some ho fun a ha => (timedReads_mem ha).1
  refine ⟨m, m', hm, hr, fun h => ?_⟩
  have hfit := (readsInside_iff (by rw [hwindow]; decide) (by rw [hwindow]; decide) ha (by rw [hevents]; decide) hr).mp
    h.inside
  rw [ha, hwindow, hevents, length_timedReads] at hfit
  exact absurd hfit (by decide)

end Hmon
