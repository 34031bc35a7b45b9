import Hmon.Lib.WaitFor
import Hmon.Thread.System

/-!
# Waiting for child monitors

The stop pass locks the mutexes of shared monitors and keeps them until the start pass; in between, the read of a
hierarchical monitor waits for the mutexes of its children.

* `WaitsFor` : a thread is blocked on a mutex that another thread locked; `Deadlocked` : a cycle of such waits;
* `Unblocked` : only the first operation of a thread can be a wait;
* `SafeWait` : a thread that starts to wait does so for another thread that does not wait itself, or nobody waits
  for it;
* `safeWait_no_deadlock` : **a round whose waits are safe does not deadlock**.
-/

namespace Hmon
open Lib

variable {V M : Type}

/-- The thread `t` is blocked on a mutex that `u` locked. -/
def waitsFor (w : World V M) (t u : Thread) : Bool :=
  match w.todo t with
  | .blocked c :: _ => decide ((w.mon c).mutex = some u)
  | _ => false

abbrev WaitsFor (w : World V M) (t u : Thread) : Prop := waitsFor w t u = true

/-- The thread is in `pthread_mutex_lock`. -/
def isBlocked (w : World V M) (t : Thread) : Bool :=
  match w.todo t with
  | .blocked _ :: _ => true
  | _ => false

def Deadlocked (w : World V M) : Prop := ¬ Acyclic (WaitsFor w)

/-- The next operation does not start a wait on the caller's own mutex, nor one on the mutex of a blocked thread
while another thread is blocked on a mutex of the caller. -/
def safeWait (w : World V M) (t : Thread) : List (Op M) → Bool
  | .lockChild c :: _ =>
    match (w.mon c).mutex with
    | none => true
    | some u =>
      decide ((w.mon c).owner = t) ||
        (decide (u ≠ t) && (!isBlocked w u || w.lib.threads.all fun v => !waitsFor w v t))
  | _ => true

abbrev SafeWait (w : World V M) (l : Thread × Answer V) : Prop := safeWait w l.1 (w.todo l.1) = true

/-- No wait among the operations. -/
def Unblocked (ops : List (Op M)) : Prop := ∀ c, .blocked c ∉ ops

/-! ## Waits are first operations -/

/-- What is pushed has no wait, or is the wait of a refused lock. -/
theorem Pushes.unblocked {mon : M → Hmonitor Thread V M} {op : Op M} {ops : List (Op M)} (h : Pushes mon op ops) :
    Unblocked ops ∨ ∃ c, op = .lockChild c ∧ ops = [.blocked c] := by
  cases h with
  | read m hops =>
    refine Or.inl fun c hc => ?_
    rcases List.mem_append.mp hc with hc | hc
    · cases hops _ hc
    · cases List.mem_singleton.mp hc
  | waits c => exact Or.inr ⟨c, rfl, rfl⟩
  | none | locked c | unlock c | reset m => exact Or.inl fun x hx => by simp at hx

theorem isBlocked_of_waitsFor {w : World V M} {t u : Thread} (h : WaitsFor w t u) : isBlocked w t = true := by
  unfold WaitsFor waitsFor at h
  unfold isBlocked
  split at h
  · rfl
  · cases h

/-- A thread without waits waits for nobody. -/
theorem not_waitsFor {w : World V M} {t : Thread} (h : Unblocked (w.todo t)) (u : Thread) : ¬ WaitsFor w t u := by
  intro hw
  unfold WaitsFor waitsFor at hw
  split at hw
  · rename_i c ops htodo
    exact h c (htodo ▸ List.mem_cons_self)
  · cases hw

/-! ## What a step does to the mutexes -/

section Steps
variable [Double V]

/-- An operation leaves the mutex as it is, unlocks it, or locks it for its thread. -/
theorem Op.effect_mutex {self : Thread} {a : Answer V} {mon : M → Hmonitor Thread V M} {op : Op M} {e : Effect V M}
    (h : op.effect self a mon = some e) :
    e.mon.mutex = (mon op.target).mutex ∨ e.mon.mutex = none ∨ e.mon.mutex = some self := by
  cases op with
  | start m =>
    cases h
    simp only [Outcome.effect, hmonitorStart, Hmon.unlock, target]
    split_ifs
    · exact Or.inl rfl
    · exact Or.inl rfl
    · exact Or.inr (Or.inl rfl)
    · exact Or.inl rfl
  | stop m =>
    cases h
    by_cases hs : (mon m).stopped = true
    · rw [hmonitorStop_of_stopped self a hs]
      exact Or.inl rfl
    · rw [Bool.not_eq_true] at hs
      rw [hmonitorStop_of_running self a hs]
      simp only [Outcome.effect, target]
      split_ifs
      · exact Or.inl rfl
      · cases hm : (mon m).mutex with
        | none => exact Or.inr (Or.inr rfl)
        | some u => exact Or.inl rfl
  | reset m => cases h; exact Or.inl rfl
  | lockChild c =>
    rcases Op.lockChild_cases h with ⟨-, rfl⟩ | ⟨-, -, rfl⟩ | ⟨-, -, rfl⟩
    · exact Or.inr (Or.inr rfl)
    · exact Or.inl rfl
    · exact Or.inl rfl
  | blocked c =>
    simp only [effect] at h
    split_ifs at h
    cases h
    exact Or.inr (Or.inr rfl)
  | unlock c => cases h; exact Or.inr (Or.inl rfl)
  | release c =>
    cases h
    simp only [hmonitorRelease, Hmon.unlock, target]
    split_ifs
    · exact Or.inr (Or.inl rfl)
    · exact Or.inl rfl
  | read | reduce | copySamples | copyEvents | addEvents | readDone =>
    exact Or.inl (Op.effect_quiet rfl h).mutex

variable [DecidableEq M] {w w' : World V M}

/-- A wait of another thread after a step: it was one before, or it is for the thread that made the step. -/
theorem waitsFor_commit {t x y : Thread} {a : Answer V} {op : Op M} {ops : List (Op M)} {e : Effect V M}
    (he : op.effect t a w.mon = some e) (hx : x ≠ t) (h : WaitsFor (w.commit t op.target e ops) x y) :
    WaitsFor w x y ∨ y = t := by
  unfold WaitsFor waitsFor at h ⊢
  rw [World.commit_todo_ne _ _ _ _ _ hx] at h
  cases htodo : w.todo x with
  | nil => rw [htodo] at h; cases h
  | cons o os =>
    rw [htodo] at h
    cases o with
    | blocked c =>
      simp only [decide_eq_true_eq] at h ⊢
      by_cases hc : c = op.target
      · subst hc
        rw [World.commit_mon_self] at h
        rcases Op.effect_mutex he with hm | hm | hm
        · exact Or.inl (hm ▸ h)
        · rw [hm] at h; cases h
        · exact Or.inr (Option.some.inj (h.symm.trans hm))
      · rw [World.commit_mon_ne _ _ _ _ _ hc] at h
        exact Or.inl h
    | _ => cases h

/-! ## Rounds -/

/-- Waits come first, existing threads only have something to do, and there is no cycle of waits. -/
structure NoDeadlock (w : World V M) : Prop where
  tails : ∀ t, Unblocked (w.todo t).tail
  outside : ∀ t, t ∉ w.lib.threads → w.todo t = []
  acyclic : Acyclic (WaitsFor w)

theorem NoDeadlock.step {l : Thread × Answer V} (h : NoDeadlock w) (hok : SafeWait w l)
    (hn : w.step l.2 l.1 = some w') : NoDeadlock w' := by
  obtain ⟨t, a⟩ := l
  obtain ⟨op, ops, e, htodo, he, rfl⟩ := World.step_cases hn
  have hops : Unblocked ops := by
    have := h.tails t
    rwa [htodo] at this
  have hout : ∀ u, u ∉ w.lib.threads → (w.commit t op.target e ops).todo u = [] := by
    intro u hu
    have hut : u ≠ t := by
      rintro rfl
      rw [h.outside u hu] at htodo
      cases htodo
    rw [World.commit_todo_ne _ _ _ _ _ hut]
    exact h.outside u hu
  rcases (Op.effect_pushes he).unblocked with hpush | ⟨c, rfl, hpush⟩
  · -- the thread does not wait afterwards: waits can only be redirected to it
    have hall : Unblocked (e.ops ++ ops) := fun c hc => (List.mem_append.mp hc).elim (hpush c) (hops c)
    refine ⟨w.commit_todo_all (Q := fun l => Unblocked l.tail) t _ e ops h.tails
      (fun c hc => hall c (List.mem_of_mem_tail hc)), hout, ?_⟩
    have hsink : ∀ y, ¬ WaitsFor (w.commit t op.target e ops) t y :=
      not_waitsFor (by rw [World.commit_todo_self]; exact hall)
    refine h.acyclic.redirect (t := t) (fun x y hxy => ?_) hsink
    have hx : x ≠ t := by
      rintro rfl
      exact hsink y hxy
    exact waitsFor_commit he hx hxy
  · -- the thread starts to wait: one new edge, to the thread that locked the child
    rcases Op.lockChild_cases he with ⟨-, rfl⟩ | ⟨-, -, rfl⟩ | ⟨hbusy, ho, rfl⟩
    · cases hpush
    · cases hpush
    · obtain ⟨u, hu⟩ := Option.ne_none_iff_exists'.mp hbusy
      have hmon : (w.commit t c ⟨w.mon c, [], [.blocked c]⟩ ops).mon = w.mon := Function.update_eq_self c w.mon
      refine ⟨w.commit_todo_all (Q := fun l => Unblocked l.tail) t _ _ ops h.tails hops, hout, ?_⟩
      refine h.acyclic.addEdge (t := t) (u := u) (fun x y hxy => ?_) ?_
      · by_cases hx : x = t
        · subst hx
          refine Or.inr ⟨rfl, ?_⟩
          simp only [WaitsFor, waitsFor, Op.target, World.commit_todo_self, hmon] at hxy
          exact Option.some.inj ((of_decide_eq_true hxy).symm.trans hu)
        · refine Or.inl ?_
          unfold WaitsFor waitsFor at hxy ⊢
          rw [World.commit_todo_ne _ _ _ _ _ hx, Op.target, hmon] at hxy
          exact hxy
      · simp only [SafeWait, safeWait, htodo, hu, Bool.or_eq_true, Bool.and_eq_true, decide_eq_true_eq, ho,
          false_or] at hok
        refine not_reach_of_end hok.1 (hok.2.imp (fun hb y hy => ?_) fun hall x hx => ?_)
        · rw [isBlocked_of_waitsFor hy] at hb
          cases hb
        · by_cases hth : x ∈ w.lib.threads
          · have := List.all_eq_true.mp hall x hth
            rw [hx] at this
            cases this
          · exact not_waitsFor (by rw [h.outside x hth]; exact fun _ => List.not_mem_nil) t hx

omit [DecidableEq M] [Double V] in
theorem noDeadlock_update (hp : w.Proper) (hi : w.Idle) : NoDeadlock w.update := by
  have hun : ∀ t, Unblocked (w.update.todo t) := by
    intro t c
    cases t with
    | main => simp [World.update, hi .main]
    | core i => simp [World.update, hmonitorThread, collect]
  exact ⟨fun t c hc => hun t c (List.mem_of_mem_tail hc), hp.update.outside,
    acyclic_of_no_edge fun x => not_waitsFor (hun x)⟩

/-- **A round does not deadlock as long as its waits are safe.** -/
theorem safeWait_no_deadlock (hr : hmonSys.Reach Fresh Lts.always w) (hi : w.Idle) {ls : List (Thread × Answer V)}
    (hok : roundSys.Along SafeWait w.update ls) (hexec : roundSys.exec w.update ls = some w') : ¬ Deadlocked w' := by
  have h : NoDeadlock w' :=
    hok.exec_inv (fun _ _ _ hi hok hn => hi.step hok hn) (noDeadlock_update (hmonSys_proper hr) hi) hexec
  exact not_not_intro h.acyclic

end Steps

/-! ## A round that deadlocks -/

namespace Crossed
open Demo

/-- On the machine the leaves 0 and 1 and the hierarchical monitors 2 over monitor 1 and 3 over monitor 0,
started. -/
def setup : List (Label ℚ ℕ) :=
  [.create .main 0 0 (leaf [1] Topo.machine), .register 0 0, .create .main 0 1 (leaf [2] Topo.machine),
    .register 1 0, .create .main 0 2 (hierarchical [3] Topo.machine [[2]]), .step .main ok,
    .create .main 0 3 (hierarchical [4] Topo.machine [[1]]), .step .main ok, .register 2 0, .register 3 0,
    .start .main fun _ => ok]

def start : World ℚ ℕ := (hmonSys.exec init setup).get (by decide +kernel)

theorem start_exec : hmonSys.exec init setup = some start := (Option.some_get _).symm

theorem start_reach : hmonSys.Reach Fresh Lts.always start := .of_exec (.init init_fresh) start_exec

theorem start_idle : start.Idle := (hmonSys_proper start_reach).idle_iff.mp (by decide +kernel)

/-- Thread 0 has stopped monitors 0, 1 and 2; thread 1 has stopped monitor 3 and waits for its child. -/
def waiting : List (Thread × Answer ℚ) := cores ([0, 0, 0] ++ List.replicate 9 1 ++ [0])

def waitingEnd : World ℚ ℕ := (roundSys.exec start.update waiting).get (by decide +kernel)

theorem waiting_exec : roundSys.exec start.update waiting = some waitingEnd := (Option.some_get _).symm

/-- Thread 0 stops monitors 0 and 2, thread 1 stops monitors 1 and 3; each then waits for the other's leaf. -/
def crossing : List (Thread × Answer ℚ) :=
  cores ([0, 1, 1, 0, 0, 1, 1, 0] ++ List.replicate 4 0 ++ List.replicate 5 1)

def crossingEnd : World ℚ ℕ := (roundSys.exec start.update crossing).get (by decide +kernel)

theorem crossing_exec : roundSys.exec start.update crossing = some crossingEnd := (Option.some_get _).symm

end Crossed

open Crossed in
theorem safeWait_waiting : isBlocked waitingEnd (.core 1) = true ∧ ¬ Deadlocked waitingEnd :=
  ⟨by decide +kernel, safeWait_no_deadlock start_reach start_idle
    (show roundSys.Along SafeWait _ waiting by decide +kernel) waiting_exec⟩

open Crossed in
/-- Two threads that each read a hierarchical monitor over a leaf that the other has stopped deadlock. -/
theorem crossing_deadlock : ∃ w : World ℚ ℕ, hmonSys.Reach Fresh Lts.always w ∧ w.Idle ∧
    ∃ ls w', (∀ l ∈ ls, l.2.ok = true) ∧ roundSys.exec w.update ls = some w' ∧ Deadlocked w' := by
  refine ⟨Crossed.start, start_reach, start_idle, crossing, crossingEnd, by decide, crossing_exec, fun h => ?_⟩
  have h01 : WaitsFor crossingEnd (.core 0) (.core 1) := by decide +kernel
  have h10 : WaitsFor crossingEnd (.core 1) (.core 0) := by decide +kernel
  exact h (.core 0) (.tail (.single h01) h10)

end Hmon
