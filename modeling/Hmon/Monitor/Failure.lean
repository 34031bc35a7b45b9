import Hmon.Monitor.Basic

/-!
# Calls whose plugin fails

`hmonitor_start`, `hmonitor_stop` and `hmonitor_read` return `-1` when the plugin's `eventset_start`,
`eventset_stop` or `eventset_read` returns `-1`.

* `Fallible`, `Fallible.run` : the three calls;
* `failed_start`, `failed_stop`, `failed_read` : what each failure leaves behind;
* `failure_atomic_iff` : **a failure leaves the monitor as it was exactly for a start, and for a stop of the
  owner**.
-/

namespace Hmon

/-- The calls that fail with the plugin. -/
inductive Fallible
  | start
  | stop
  | read
  deriving DecidableEq

variable {T V M : Type} [DecidableEq T]

def Fallible.run [Double V] (self : T) (a : Answer V) (m : Hmonitor T V M) : Fallible → Outcome T V M
  | start => hmonitorStart self a m
  | stop => hmonitorStop self a m
  | read => hmonitorRead self a m

variable {self : T} {a : Answer V} {m : Hmonitor T V M}

/-! ## What a failure leaves behind -/

/-- The flag is written after the plugin call. -/
theorem failed_start (h : (hmonitorStart self a m).ret = -1) : (hmonitorStart self a m).mon = m := by
  unfold hmonitorStart at h ⊢
  by_cases hs : m.stopped = true
  · by_cases ho : m.owner = self
    · by_cases ha : a.ok = true
      · simp [hs, ho, ha] at h
      · simp [hs, ho, ha]
    · simp [hs, ho]
  · simp [hs]

/-- The lock is taken before the plugin call and not given back. -/
theorem failed_stop (h : (hmonitorStop self a m).ret = -1) : (hmonitorStop self a m).mon = { m with
    owner := self
    mutex := if m.owner = self then m.mutex else m.mutex.or (some self) } := by
  by_cases hs : m.stopped = true
  · rw [hmonitorStop_of_stopped self a hs] at h
    cases h
  · rw [Bool.not_eq_true] at hs
    rw [hmonitorStop_of_running self a hs] at h ⊢
    have ha : a.ok = false := by
      by_contra hne
      rw [Bool.not_eq_false] at hne
      rw [if_pos hne] at h
      cases h
    simp only [ha, hs]

/-- The row, the count and the timestamp are written before the plugin call. -/
theorem failed_read [Double V] (h : (hmonitorRead self a m).ret = -1) :
    (hmonitorRead self a m).mon = nextRow a.now m := by
  unfold hmonitorRead at h ⊢
  by_cases ho : m.owner = self
  · by_cases ha : a.ok = true
    · simp [ho, ha] at h
    · simp [ho, ha]
  · simp [ho] at h

omit [DecidableEq T] in
/-- A taken row is counted. -/
theorem nextRow_ne [Double V] (now : Int) (m : Hmonitor T V M) : nextRow now m ≠ m := by
  intro h
  exact u32_succ_ne m.total (congrArg Hmonitor.total h)

/-! ## The failures that change nothing -/

/-- **A failed call leaves the monitor as it was exactly when it is a start, or a stop by the owner.** -/
theorem failure_atomic_iff [Double V] (self : T) (a : Answer V) (m : Hmonitor T V M) (c : Fallible)
    (h : (c.run self a m).ret = -1) :
    (c.run self a m).mon = m ↔ c = .start ∨ (c = .stop ∧ m.owner = self) := by
  cases c with
  | start => exact iff_of_true (failed_start h) (Or.inl rfl)
  | stop =>
    have hstop : (Fallible.stop.run self a m).mon = _ := failed_stop h
    rw [hstop]
    constructor
    · intro he
      exact Or.inr ⟨rfl, (congrArg Hmonitor.owner he).symm⟩
    · rintro (h0 | ⟨-, ho⟩)
      · cases h0
      · subst ho
        rw [if_pos rfl]
  | read =>
    have hread : (Fallible.read.run self a m).mon = _ := failed_read h
    rw [hread]
    refine iff_of_false (nextRow_ne _ _) ?_
    rintro (h0 | ⟨h0, -⟩) <;> cases h0

/-! ## A failed stop of another thread -/

/-- A monitor that thread 0 created and started. -/
def startedDemo : Hmonitor ℕ ℚ ℕ :=
  (hmonitorStart 0 ⟨true, [], 0⟩ fakeMonitor).mon

/-- The stop of the owner fails and changes nothing. -/
theorem failure_atomic_owner : (hmonitorStop 0 ⟨false, [], 0⟩ startedDemo).mon = startedDemo :=
  (failure_atomic_iff 0 ⟨false, [], 0⟩ startedDemo .stop rfl).mpr (Or.inr ⟨rfl, rfl⟩)

/-- Thread 1's failed stop keeps the mutex and the ownership; thread 0's failed read keeps the new row. -/
theorem failure_not_atomic :
    ((hmonitorStop 1 ⟨false, [], 0⟩ startedDemo).ret = -1 ∧
      (hmonitorStop 1 ⟨false, [], 0⟩ startedDemo).mon.mutex = some 1 ∧
      (hmonitorStop 1 ⟨false, [], 0⟩ startedDemo).mon.owner = 1 ∧
      startedDemo.mutex = none ∧ startedDemo.owner = 0) ∧
    (hmonitorRead 0 ⟨false, [], 0⟩ startedDemo).ret = -1 ∧
      (hmonitorRead 0 ⟨false, [], 0⟩ startedDemo).mon.total ≠ startedDemo.total := by
  refine ⟨⟨rfl, rfl, rfl, rfl, rfl⟩, rfl, by decide⟩

end Hmon
