import Hmon.Thread.System

/-!
# Which monitors run again after a round

A monitor that a round stopped is started again by its owner only.

* `RoundStart` : the monitors run and their mutexes are free, and nobody is in a call;
* `Visiting` : when a read of a hierarchical monitor takes the lock of a stopped child, the reading thread still
  has its own `hmonitor_start` of that child to call;
* `Restartable` : the owner of a stopped monitor has its `hmonitor_start` of it to call, in every state of a
  visiting run;
* `round_restarts` : **after a visiting round every monitor runs**.
-/

namespace Hmon
open Lib

variable {V M : Type}

/-- The state before a round: every registered monitor runs, its mutex is free, and nobody is in a call. -/
structure RoundStart (w : World V M) : Prop where
  idle : w.Idle
  running : ∀ m ∈ w.lib.registered, (w.mon m).stopped = false
  free : ∀ m ∈ w.lib.registered, (w.mon m).mutex = none

/-- The next operation does not lock the free mutex of a stopped child that the thread will not start. -/
def restartsChild [DecidableEq M] (w : World V M) : List (Op M) → Bool
  | .lockChild c :: ops => (w.mon c).mutex.isSome || !(w.mon c).stopped || decide (.start c ∈ ops)
  | _ => true

/-- The plugins succeed, and a thread that locks the free mutex of a stopped child visits it itself. -/
def Visiting [DecidableEq M] (w : World V M) (l : Thread × Answer V) : Prop :=
  l.2.ok = true ∧ restartsChild w (w.todo l.1) = true

instance [DecidableEq M] (w : World V M) (l : Thread × Answer V) : Decidable (Visiting w l) :=
  inferInstanceAs (Decidable (_ ∧ _))

/-- Nobody resets a monitor, a thread that has to stop `m` starts it afterwards, and so does the owner of `m`
when it is stopped. -/
structure Restartable (m : M) (w : World V M) : Prop where
  noReset : ∀ t, NoReset (w.todo t)
  follows : ∀ t, Follows (.stop m) [.start m] (w.todo t)
  owner : (w.mon m).stopped = true → .start m ∈ w.todo (w.mon m).owner

/-! ## The start of a round -/

theorem RoundStart.restartable {w : World V M} (h : RoundStart w) {m : M} (hm : m ∈ w.lib.registered) :
    Restartable m w.update := by
  refine ⟨World.update_noReset (h.idle .main), World.update_todo_all (h.idle .main) trivial fun i => ?_, fun hs => ?_⟩
  · exact (hmonitorThread_follows w.lib i m).mono (List.singleton_sublist.mpr (by simp))
  · exact absurd ((h.running m hm).symm.trans hs) (by decide)

/-! ## A step -/

section Steps
variable [DecidableEq M] {w w' : World V M} {m : M}

/-- An operation on another monitor, or one that leaves the flag and the owner alone. -/
theorem Restartable.frame {t : Thread} {op : Op M} {ops : List (Op M)} {e : Effect V M} (h : Restartable m w)
    (htodo : w.todo t = op :: ops) (hop : op ≠ .start m)
    (hs : ((w.commit t op.target e ops).mon m).stopped = (w.mon m).stopped)
    (ho : ((w.commit t op.target e ops).mon m).owner = (w.mon m).owner)
    (hstop : ((w.commit t op.target e ops).mon m).stopped = true) :
    .start m ∈ (w.commit t op.target e ops).todo ((w.commit t op.target e ops).mon m).owner := by
  rw [hs] at hstop
  rw [ho]
  exact w.commit_todo_mem t _ e ops htodo (h.owner hstop) fun _ => hop.symm

variable [Double V]

theorem Restartable.step {l : Thread × Answer V} (h : Restartable m w) (hv : Visiting w l)
    (hn : w.step l.2 l.1 = some w') : Restartable m w' := by
  obtain ⟨t, a⟩ := l
  obtain ⟨op, ops, e, htodo, he, rfl⟩ := World.step_cases hn
  have hp := Op.effect_pushes he
  have hnr : NoReset (op :: ops) := htodo ▸ h.noReset t
  refine ⟨w.commit_todo_all t _ e ops h.noReset (hnr.step hp), fun u => ?_, ?_⟩
  · refine w.commit_todo_all t _ e ops h.follows ?_ u
    have hf := h.follows t
    rw [htodo] at hf
    exact (Follows.of_not_mem (hp.not_startStop m).2).append hf.tail
  · by_cases hm : op.target = m
    · by_cases hs : op.steers = true
      · cases op with
        | start x =>
          obtain rfl : x = m := hm
          cases he
          rw [Op.target, World.commit_mon_self]
          intro hstop
          by_cases hst : (w.mon x).stopped = true
          · by_cases ho : (w.mon x).owner = t
            · rw [hmonitorStart_of_owner hst ho hv.1] at hstop
              cases hstop
            · rw [hmonitorStart_of_other a hst ho]
              show .start x ∈ (w.commit t x _ ops).todo (w.mon x).owner
              rw [World.commit_todo_ne _ _ _ _ _ ho]
              exact h.owner hst
          · rw [Bool.not_eq_true] at hst
            rw [hmonitorStart_of_running t a hst] at hstop
            exact absurd (hst.symm.trans hstop) (by decide)
        | stop x =>
          obtain rfl : x = m := hm
          cases he
          by_cases hst : (w.mon x).stopped = true
          · refine h.frame htodo (by simp) ?_ ?_ <;>
              rw [Op.target, World.commit_mon_self, hmonitorStop_of_stopped t a hst] <;> rfl
          · -- the new owner's own program starts `m` again
            rw [Bool.not_eq_true] at hst
            intro _
            have hf := h.follows t
            rw [htodo] at hf
            rw [Op.target, World.commit_mon_self, hmonitorStop_of_running t a hst]
            show .start x ∈ (w.commit t x _ ops).todo t
            rw [World.commit_todo_self]
            exact List.singleton_sublist.mp hf.head
        | lockChild c =>
          obtain rfl : c = m := hm
          rcases Op.lockChild_cases he with ⟨hfree, rfl⟩ | ⟨-, -, rfl⟩ | ⟨-, -, rfl⟩
          · rw [Op.target, World.commit_mon_self]
            intro hst
            have hc := hv.2
            simp only [htodo, restartsChild, hfree] at hc
            have hst' : (w.mon c).stopped = true := hst
            rw [hst'] at hc
            rw [World.commit_todo_self]
            exact List.mem_append_right _ (by simpa using hc)
          · exact h.frame htodo (by simp) (by rw [Op.target, World.commit_mon_self])
              (by rw [Op.target, World.commit_mon_self])
          · exact h.frame htodo (by simp) (by rw [Op.target, World.commit_mon_self])
              (by rw [Op.target, World.commit_mon_self])
        | reset x => exact absurd List.mem_cons_self (hnr x)
        | read | reduce | blocked | unlock | release | copySamples | copyEvents | addEvents | readDone => cases hs
      · rw [Bool.not_eq_true] at hs
        obtain ⟨h1, h2⟩ := Op.effect_unsteered hs he
        subst hm
        refine h.frame htodo (fun h0 => ?_) (by rw [World.commit_mon_self, h1]) (by rw [World.commit_mon_self, h2])
        rw [h0] at hs
        cases hs
    · have hmon := w.commit_mon_ne t op.target e ops (Ne.symm hm)
      exact h.frame htodo (fun h0 => hm (by rw [h0]; rfl)) (by rw [hmon]) (by rw [hmon])

/-- **After a visiting round every registered monitor that a thread visits runs again.** -/
theorem round_restarts {ls : List (Thread × Answer V)} (h : RoundStart w)
    (hv : roundSys.Along Visiting w.update ls) (hrun : roundSys.exec w.update ls = some w') (hidle : w'.Idle) :
    ∀ m ∈ w.lib.registered, ∀ i, m ∈ w.lib.visits i → (w'.mon m).stopped = false := by
  intro m hm i _
  have hr : Restartable m w' := hv.exec_inv (fun _ _ _ hi hok hn => hi.step hok hn) (h.restartable hm) hrun
  by_contra hs
  rw [Bool.not_eq_false] at hs
  have hmem := hr.owner hs
  rw [hidle] at hmem
  cases hmem

end Steps

/-! ## A round that freezes a monitor -/

namespace Frozen
open Demo

/-- Monitor 0 on core 0 and the hierarchical monitor 1 over it on the machine, started, after one round. -/
def setup : List (Label ℚ ℕ) :=
  [.create .main 0 0 (leaf [1] (Topo.coreObj 0)), .register 0 0,
    .create .main 0 1 (hierarchical [2] Topo.machine [[1]]), .step .main ok, .register 1 0,
    .start .main fun _ => ok, .update] ++ steps ([0, 0, 1, 1, 1, 1] ++ List.replicate 12 0)

def start : World ℚ ℕ := (hmonSys.exec init setup).get (by decide +kernel)

theorem start_exec : hmonSys.exec init setup = some start := (Option.some_get _).symm

theorem start_reach : hmonSys.Reach Fresh Lts.always start := .of_exec (.init init_fresh) start_exec

theorem start_roundStart : RoundStart start :=
  ⟨(hmonSys_proper start_reach).idle_iff.mp (by decide +kernel), by decide +kernel, by decide +kernel⟩

theorem run_idle {w : World ℚ ℕ} {ls : List (Thread × Answer ℚ)} (h : roundSys.exec start.update ls = some w)
    (hi : w.idle = true) : w.Idle :=
  (roundSys_proper (hmonSys_proper start_reach).update h).idle_iff.mp hi

/-- Thread 0 works through its passes before thread 1. -/
def orderly : List (Thread × Answer ℚ) := cores (List.replicate 14 0 ++ List.replicate 10 1)

def orderlyEnd : World ℚ ℕ := (roundSys.exec start.update orderly).get (by decide +kernel)

theorem orderly_exec : roundSys.exec start.update orderly = some orderlyEnd := (Option.some_get _).symm

/-- Thread 0 stops its monitor. Thread 1 stops and reads the hierarchical one and so takes the lock of the stopped
child, and its ownership: thread 0 cannot start its monitor any more. -/
def stealing : List (Thread × Answer ℚ) := cores ([0, 1, 0] ++ List.replicate 9 1 ++ List.replicate 6 0)

def stealingEnd : World ℚ ℕ := (roundSys.exec start.update stealing).get (by decide +kernel)

theorem stealing_exec : roundSys.exec start.update stealing = some stealingEnd := (Option.some_get _).symm

end Frozen

open Frozen in
theorem round_restarts_orderly : (orderlyEnd.mon 0).stopped = false ∧ (orderlyEnd.mon 1).stopped = false := by
  have h := round_restarts start_roundStart (show roundSys.Along Visiting _ orderly by decide +kernel) orderly_exec
    (run_idle orderly_exec (by decide +kernel))
  exact ⟨h 0 (by decide +kernel) 0 (by decide +kernel), h 1 (by decide +kernel) 0 (by decide +kernel)⟩

open Frozen in
/-- From a reachable state in which every monitor runs, with plugins that succeed, a round leaves the monitor of
core 0 stopped. -/
theorem round_freezes : ∃ w : World ℚ ℕ, hmonSys.Reach Fresh Lts.always w ∧ RoundStart w ∧
    ∃ ls w', (∀ l ∈ ls, l.2.ok = true) ∧ roundSys.exec w.update ls = some w' ∧ w'.Idle ∧
      ∃ m ∈ w.lib.registered, ∃ i, m ∈ w.lib.visits i ∧ (w'.mon m).stopped = true :=
  ⟨Frozen.start, start_reach, start_roundStart, stealing, stealingEnd, by decide, stealing_exec,
    run_idle stealing_exec (by decide +kernel), 0, by decide +kernel, 0, by decide +kernel, by decide +kernel⟩

end Hmon
