import Hmon.Lib.Follows
import Hmon.Lib.Lts
import Hmon.Thread.Step

/-!
# Update rounds

* `hmonUpdateLocation`, `hmonitorThread` : the four passes of a core thread over the monitors below and above its
  core;
* `World.update` : the start of a round; `roundSys` : the interleavings of the threads' operations;
* `hmonitorsDo`, `hmonStart`, `hmonStop`, `hmonRestrictPidTaskset` : the loops over all monitors.
-/

namespace Hmon
open Lib

variable {V M : Type}

/-! ## A round -/

/-- The monitors that `hmon_update_location(Core, 1, 1, update)` calls `update` on, in order: those of the core
and of the objects below it, then those of its parents. -/
def hmonUpdateLocation (L : Registry V M) (core : Loc) : List M :=
  (core.here.objs ++ core.above).flatMap L.objMonitors

/-- The monitors that the thread of core `i` visits. -/
def Registry.visits (L : Registry V M) (i : Nat) : List M :=
  match L.topo.cores[i]? with
  | none => []
  | some core => hmonUpdateLocation L core

def Registry.ncores (L : Registry V M) : Nat := L.topo.cores.length

/-- The stop, read and reduce passes of `hmonitor_thread`, before it signals that it is up to date. -/
def collect (ms : List M) : List (Op M) := ms.map .stop ++ ms.map .read ++ ms.map .reduce

/-- One round of `hmonitor_thread` between two waits at the first barrier. -/
def hmonitorThread (L : Registry V M) (i : Nat) : List (Op M) :=
  collect (L.visits i) ++ (L.visits i).map .start

/-- A thread that stops a monitor goes on to read, reduce and start it. -/
theorem hmonitorThread_follows (L : Registry V M) (i : Nat) (m : M) :
    Follows (.stop m) [.read m, .reduce m, .start m] (hmonitorThread L i) := by
  unfold hmonitorThread collect
  rw [List.append_assoc, List.append_assoc]
  by_cases hm : m ∈ L.visits i
  · have hpass : ∀ f : M → Op M, [f m].Sublist ((L.visits i).map f) :=
      fun f => List.singleton_sublist.mpr (List.mem_map_of_mem hm)
    refine Follows.append_of_sublist ?_ (Follows.of_not_mem (by simp))
    exact (hpass .read).append ((hpass .reduce).append (hpass .start))
  · exact Follows.of_not_mem (by simpa using hm)

namespace World

/-- A round starts: the core threads leave the second barrier. -/
def update (w : World V M) : World V M where
  lib := w.lib
  todo
    | .main => w.todo .main
    | .core i => hmonitorThread w.lib i
  past := w.past ++ w.round
  round := []

/-- Nobody is in a call: the core threads wait at the first barrier. -/
def Idle (w : World V M) : Prop := ∀ t, w.todo t = []

/-- What holds of the programs of a round holds of every thread when the main thread has nothing to do. -/
theorem update_todo_all {w : World V M} {Q : List (Op M) → Prop} (h : w.todo .main = []) (h0 : Q [])
    (hq : ∀ i, Q (hmonitorThread w.lib i)) (t : Thread) : Q (w.update.todo t) := by
  cases t with
  | main =>
    show Q (w.todo .main)
    rw [h]
    exact h0
  | core i => exact hq i

theorem update_noReset {w : World V M} (h : w.todo .main = []) (t : Thread) : NoReset (w.update.todo t) :=
  update_todo_all h (fun _ => List.not_mem_nil) (fun i x => by simp [hmonitorThread, collect]) t

theorem step_visits [DecidableEq M] [Double V] {a : Answer V} {t : Thread} {w w' : World V M}
    (h : w.step a t = some w') : w'.lib.visits = w.lib.visits := by
  obtain ⟨op, ops, e, -, -, rfl⟩ := step_cases h
  rfl

section Loops
variable [DecidableEq M]

/-- `hmonitors_do(monitors, call)`. -/
def hmonitorsDo (call : M → Hmonitor Thread V M → Outcome Thread V M) : List M → World V M → World V M
  | [], w => w
  | m :: ms, w =>
    let o := call m (w.mon m)
    hmonitorsDo call ms (w.put m o.mon o.events)

def hmonStart (self : Thread) (a : M → Answer V) (w : World V M) : World V M :=
  hmonitorsDo (fun m => hmonitorStart self (a m)) w.lib.registered w

def hmonStop (self : Thread) (a : M → Answer V) (w : World V M) : World V M :=
  hmonitorsDo (fun m => hmonitorStop self (a m)) w.lib.registered w

/-- The body of the loop of `hmon_restrict_pid_taskset`; the result of `eventset_stop` is not looked at. -/
def tasksetStop (running : Cpuset) (m : Hmonitor Thread V M) : Outcome Thread V M :=
  if m.location.cpuset ∩ running = ∅ ∧ m.stopped = false then ⟨0, { m with stopped := true }, [.stop]⟩
  else ⟨0, m, []⟩

omit [DecidableEq M] in
theorem tasksetStop_shape (running : Cpuset) (m : Hmonitor Thread V M) :
    SameShape m (tasksetStop running m).mon := by
  unfold tasksetStop
  split_ifs <;> exact ⟨rfl, rfl⟩

/-- `hmon_restrict_pid_taskset`, `running` being the cpuset on which the process has running tasks. -/
def hmonRestrictPidTaskset (running : Cpuset) (w : World V M) : World V M :=
  hmonitorsDo (fun _ => tasksetStop running) w.lib.registered w

end Loops
end World

/-- The interleavings of the threads' operations. -/
def roundSys [DecidableEq M] [Double V] : Lts (World V M) (Thread × Answer V) := ⟨fun w l => w.step l.2 l.1⟩

end Hmon
