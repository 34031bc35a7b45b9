import Hmon.Thread.System

/-!
# `hmon_start` and `hmon_stop`

`hmonitor_start` acts for the owner of a stopped monitor only, and registration makes the thread of a core the
owner of the monitors of the core and of its processing units. `hmonitor_stop` takes the lock of any monitor.

* `AllRunning`, `AllStopped` : what the two calls are for;
* `hmonStart_mon`, `hmonStop_mon` : the flag and the owner of each monitor after the loops;
* `start_stop_all` : **`hmon_stop` stops every monitor; `hmon_start` starts every monitor exactly when each of
  them runs already or is the caller's**.
-/

namespace Hmon
open Lib

variable {V M : Type}

def AllRunning (w : World V M) : Prop := ∀ m ∈ w.lib.registered, (w.mon m).stopped = false

def AllStopped (w : World V M) : Prop := ∀ m ∈ w.lib.registered, (w.mon m).stopped = true

section Loops
variable [DecidableEq M] {self : Thread} {a : M → Answer V} {m : M}

theorem put_mon_self (w : World V M) (x : M) (h : Hmonitor Thread V M) (events : List Event) :
    (w.put x h events).mon x = h := Function.update_self ..

theorem put_mon_ne (w : World V M) {x : M} (hx : m ≠ x) (h : Hmonitor Thread V M) (events : List Event) :
    (w.put x h events).mon m = w.mon m := Function.update_of_ne hx ..

theorem hmonitorsDo_registered (call : M → Hmonitor Thread V M → Outcome Thread V M) (ms : List M) (w : World V M) :
    (World.hmonitorsDo call ms w).lib.registered = w.lib.registered := by
  induction ms generalizing w with
  | nil => rfl
  | cons x ms ih => exact ih _

/-! ## The loop of `hmon_start` -/

omit [DecidableEq M] in
/-- One start: the monitor runs afterwards if it ran before or is the caller's, and not otherwise. -/
theorem hmonitorStart_stopped {b : Answer V} (hb : b.ok = true) (h : Hmonitor Thread V M) :
    (hmonitorStart self b h).mon.stopped = false ↔ h.stopped = false ∨ h.owner = self := by
  by_cases hs : h.stopped = true
  · by_cases ho : h.owner = self
    · rw [hmonitorStart_of_owner hs ho hb]
      exact iff_of_true rfl (Or.inr ho)
    · rw [hmonitorStart_of_other b hs ho]
      exact iff_of_false (by rw [hs]; decide) (by rw [hs]; simp [ho])
  · rw [Bool.not_eq_true] at hs
    rw [hmonitorStart_of_running self b hs]
    exact iff_of_true hs (Or.inl hs)

/-- After the loop a monitor runs if it ran before, or is the caller's and in the list. -/
theorem hmonStart_mon (ms : List M) (ha : ∀ x ∈ ms, (a x).ok = true) (w : World V M) :
    ((World.hmonitorsDo (fun x => hmonitorStart self (a x)) ms w).mon m).stopped = false ↔
      (w.mon m).stopped = false ∨ m ∈ ms ∧ (w.mon m).owner = self := by
  induction ms generalizing w with
  | nil => simp [World.hmonitorsDo]
  | cons x ms ih =>
    rw [World.hmonitorsDo, ih fun y hy => ha y (List.mem_cons_of_mem x hy)]
    by_cases hm : m = x
    · subst hm
      rw [put_mon_self, hmonitorStart_stopped (ha m List.mem_cons_self), hmonitorStart_owner]
      constructor
      · rintro ((h | h) | ⟨-, h⟩)
        · exact Or.inl h
        · exact Or.inr ⟨List.mem_cons_self, h⟩
        · exact Or.inr ⟨List.mem_cons_self, h⟩
      · rintro (h | ⟨-, h⟩)
        · exact Or.inl (Or.inl h)
        · exact Or.inl (Or.inr h)
    · rw [put_mon_ne w hm, List.mem_cons]
      simp only [hm, false_or]

/-! ## The loop of `hmon_stop` -/

omit [DecidableEq M] in
theorem hmonitorStop_stopped {b : Answer V} (hb : b.ok = true) (h : Hmonitor Thread V M) :
    (hmonitorStop self b h).mon.stopped = true := by
  by_cases hs : h.stopped = true
  · rw [hmonitorStop_of_stopped self b hs]
    exact hs
  · rw [Bool.not_eq_true] at hs
    rw [hmonitorStop_of_running self b hs]
    exact hb

/-- After the loop a monitor of the list is stopped. -/
theorem hmonStop_mon (ms : List M) (ha : ∀ x ∈ ms, (a x).ok = true) (w : World V M)
    (h : m ∈ ms ∨ (w.mon m).stopped = true) :
    ((World.hmonitorsDo (fun x => hmonitorStop self (a x)) ms w).mon m).stopped = true := by
  induction ms generalizing w with
  | nil => exact h.resolve_left List.not_mem_nil
  | cons x ms ih =>
    refine ih (fun y hy => ha y (List.mem_cons_of_mem x hy)) _ ?_
    by_cases hm : m = x
    · subst hm
      rw [put_mon_self]
      exact Or.inr (hmonitorStop_stopped (ha m List.mem_cons_self) _)
    · rw [put_mon_ne w hm]
      exact h.imp_left fun hmem => (List.mem_cons.mp hmem).resolve_left hm

end Loops

/-- **In every state, `hmon_start` leaves every registered monitor running if and only if each of them runs already
or is owned by the caller; `hmon_stop` stops every registered monitor.** -/
theorem start_stop_all [DecidableEq M] (w : World V M) (self : Thread) (a : M → Answer V)
    (ha : ∀ m ∈ w.lib.registered, (a m).ok = true) :
    (AllRunning (w.hmonStart self a) ↔
        ∀ m ∈ w.lib.registered, (w.mon m).stopped = false ∨ (w.mon m).owner = self) ∧
      AllStopped (w.hmonStop self a) := by
  refine ⟨forall_congr' fun m => ?_, fun m hm => ?_⟩
  · rw [World.hmonStart, hmonitorsDo_registered]
    refine forall_congr' fun hm => ?_
    rw [hmonStart_mon _ ha]
    exact or_congr_right (and_iff_right hm)
  · rw [World.hmonStop, hmonitorsDo_registered] at hm
    exact hmonStop_mon _ ha w (Or.inl hm)

/-! ## A monitor on a core -/

namespace OnCore
open Demo

/-- Monitor 0 on the machine and monitor 1 on core 0, created by the main thread. -/
def setup : List (Label ℚ ℕ) :=
  [.create .main 0 0 (leaf [1] Topo.machine), .register 0 0, .create .main 0 1 (leaf [2] (Topo.coreObj 0)),
    .register 1 0]

def start : World ℚ ℕ := (hmonSys.exec init setup).get (by decide +kernel)

theorem start_exec : hmonSys.exec init setup = some start := (Option.some_get _).symm

end OnCore

open OnCore in
theorem start_stop_onCore : AllStopped (OnCore.start.hmonStop .main fun _ => Demo.ok) :=
  (start_stop_all OnCore.start .main (fun _ => Demo.ok) fun _ _ => rfl).2

open OnCore in
/-- `hmon_start` by the main thread does not start the monitor of core 0. -/
theorem start_misses_core : ∃ w : World ℚ ℕ, hmonSys.Reach Fresh Lts.always w ∧ w.idle = true ∧
    (∀ m ∈ w.lib.registered, w.lib.created.contains m = true) ∧
    ¬ AllRunning (w.hmonStart .main fun _ => Demo.ok) := by
  refine ⟨OnCore.start, .of_exec (.init Demo.init_fresh) start_exec, by decide +kernel, by decide +kernel, fun h => ?_⟩
  exact absurd (h 1 (by decide +kernel)) (by decide +kernel)

end Hmon
