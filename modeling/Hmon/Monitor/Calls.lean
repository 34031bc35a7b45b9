import Hmon.Monitor.Basic

/-!
# Calls on one monitor between two resets

* `MonitorCall`, `runCalls` : the calls of any threads, and the samples after each successful reduction;
* `run_cases` : what one call can do;
* `rowsTaken` : the reads that took a row; `runCalls_total` : **the total counts them modulo `2^32`**.
-/

namespace Hmon

/-- A call on a monitor, or a thread that waits for its mutex and takes it or gives it back (`holder`). -/
inductive MonitorCall (T V : Type)
  | trylock (t : T) (wait : Bool)
  | holder (h : Option T)
  | release (t : T)
  | start (t : T) (a : Answer V)
  | stop (t : T) (a : Answer V)
  | read (t : T) (a : Answer V)
  | reduce (t : T)

variable {T V M : Type} [DecidableEq T] [Double V]

def MonitorCall.run (m : Hmonitor T V M) : MonitorCall T V → Hmonitor T V M
  | trylock t wait => (hmonitorTrylock t wait m).2
  | holder h => { m with mutex := h }
  | release t => (hmonitorRelease t m).2
  | start t a => (hmonitorStart t a m).mon
  | stop t a => (hmonitorStop t a m).mon
  | read t a => (hmonitorRead t a m).mon
  | reduce t => (hmonitorReduce t m).mon

/-- The call is a reduction that returns 1. -/
def MonitorCall.reduces (m : Hmonitor T V M) : MonitorCall T V → Bool
  | reduce t => decide ((hmonitorReduce t m).ret = 1)
  | _ => false

/-- The monitor after the calls, and its samples after each successful reduction. -/
def runCalls : Hmonitor T V M → List (MonitorCall T V) → Hmonitor T V M × List (List V)
  | m, [] => (m, [])
  | m, c :: cs =>
    let (o, ss) := runCalls (c.run m) cs
    (o, if c.reduces m then (c.run m).samples :: ss else ss)

/-- The call is a read by the owner: it takes a row, also where the plugin fails. -/
def MonitorCall.takesRow (m : Hmonitor T V M) : MonitorCall T V → Bool
  | read t _ => decide (m.owner = t)
  | _ => false

/-- The number of rows that the calls take. -/
def rowsTaken : Hmonitor T V M → List (MonitorCall T V) → Nat
  | _, [] => 0
  | m, c :: cs => (if c.takesRow m then 1 else 0) + rowsTaken (c.run m) cs

/-! ## What one call does -/

/-- A call takes a row, reduces, or touches nothing but the stopped flag, the owner and the mutex. -/
theorem run_cases (m : Hmonitor T V M) (c : MonitorCall T V) :
    (c.takesRow m = true ∧ c.reduces m = false ∧
      ∃ now events, c.run m = { nextRow now m with events := events }) ∨
    (c.takesRow m = false ∧ c.reduces m = true ∧ ∃ samples, c.run m = { m with
      samples := samples
      max := List.zipWith (fun x s => if s < x then x else s) m.max samples
      min := List.zipWith (fun x s => if x < s then x else s) m.min samples }) ∨
    c.takesRow m = false ∧ c.reduces m = false ∧ OnlyControl m (c.run m) := by
  cases c with
  | trylock t wait => exact .inr (.inr ⟨rfl, rfl, hmonitorTrylock_onlyControl t wait m⟩)
  | holder h => exact .inr (.inr ⟨rfl, rfl, _, _, _, rfl⟩)
  | release t => exact .inr (.inr ⟨rfl, rfl, hmonitorRelease_onlyControl t m⟩)
  | start t a => exact .inr (.inr ⟨rfl, rfl, hmonitorStart_onlyControl t a m⟩)
  | stop t a => exact .inr (.inr ⟨rfl, rfl, hmonitorStop_onlyControl t a m⟩)
  | read t a =>
    by_cases ho : m.owner = t
    · refine .inl ⟨decide_eq_true ho, rfl, a.now, ?_⟩
      simp only [MonitorCall.run, hmonitorRead, if_pos ho]
      split_ifs <;> exact ⟨_, rfl⟩
    · refine .inr (.inr ⟨decide_eq_false ho, rfl, m.stopped, m.owner, m.mutex, ?_⟩)
      simp only [MonitorCall.run, hmonitorRead, if_neg ho]
  | reduce t =>
    by_cases ho : m.owner = t
    · refine .inr (.inl ⟨rfl, ?_, ?_⟩)
      · simp [MonitorCall.reduces, hmonitorReduce, ho]
      · simp only [MonitorCall.run, hmonitorReduce, if_pos ho]
        exact ⟨_, rfl⟩
    · refine .inr (.inr ⟨rfl, ?_, m.stopped, m.owner, m.mutex, ?_⟩)
      · simp [MonitorCall.reduces, hmonitorReduce, ho]
      · simp only [MonitorCall.run, hmonitorReduce, if_neg ho]

/-! ## Runs -/

/-- The same numbers of rows and events. -/
structure SameConfig (m m' : Hmonitor T V M) : Prop where
  window : m'.window = m.window
  nEvents : m'.nEvents = m.nEvents

theorem run_config (m : Hmonitor T V M) (c : MonitorCall T V) : SameConfig m (c.run m) := by
  rcases run_cases m c with ⟨-, -, now, events, he⟩ | ⟨-, -, samples, he⟩ | ⟨-, -, stopped, owner, mutex, he⟩ <;>
    exact he ▸ ⟨rfl, rfl⟩

theorem runCalls_config (m : Hmonitor T V M) (cs : List (MonitorCall T V)) : SameConfig m (runCalls m cs).1 := by
  induction cs generalizing m with
  | nil => exact ⟨rfl, rfl⟩
  | cons c cs ih =>
    have hc := run_config m c
    have hcs := ih (c.run m)
    exact ⟨hcs.window.trans hc.window, hcs.nEvents.trans hc.nEvents⟩

theorem run_total (m : Hmonitor T V M) (c : MonitorCall T V) :
    (c.run m).total = if c.takesRow m then u32 (m.total + 1) else m.total := by
  rcases run_cases m c with ⟨ht, -, now, events, he⟩ | ⟨ht, -, samples, he⟩ | ⟨ht, -, stopped, owner, mutex, he⟩ <;>
    rw [he, ht] <;> rfl

/-- **The total counts the rows taken, modulo `2^32`.** -/
theorem runCalls_total {m : Hmonitor T V M} (h : m.total < 2 ^ 32) (cs : List (MonitorCall T V)) :
    (runCalls m cs).1.total = u32 (m.total + rowsTaken m cs) := by
  induction cs generalizing m with
  | nil => exact (Nat.mod_eq_of_lt h).symm
  | cons c cs ih =>
    have hc := run_total m c
    show (runCalls (c.run m) cs).1.total = u32 (m.total + ((if c.takesRow m then 1 else 0) + rowsTaken (c.run m) cs))
    cases hr : c.takesRow m with
    | true =>
      rw [hr, if_pos rfl] at hc
      rw [ih (hc ▸ Nat.mod_lt _ (Nat.two_pow_pos 32)), hc, if_pos rfl, ← Nat.add_assoc]
      exact Nat.mod_add_mod _ _ _
    | false =>
      rw [hr, if_neg Bool.false_ne_true] at hc
      rw [ih (hc ▸ h), hc, if_neg Bool.false_ne_true, Nat.zero_add]

end Hmon
