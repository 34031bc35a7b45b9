import Hmon.Barrier.Coord
import Hmon.Lib.Layered
import Mathlib.Data.List.FinRange

/-!
# The round and shutdown barriers

One main thread calls `hmon_update`, the timer handler calls it again on the same thread, at any point, and at the end
the main thread calls `hmon_lib_finalize` once, without interruption.

* `Shutdown` : the core threads, the calls of `hmon_update` on the stack of the main thread, innermost first, and the
  call of `hmon_lib_finalize`;
* `Stage` of `Shutdown` : where a round or the shutdown is; `Closed` : a full barrier does not stay closed;
* `Aligned` : all parties at the barrier wait at the same of its two points;
* `Shutdown.steps` : the steps that remain when no update is called any more;
* `barriers_aligned` : **callers and core threads always meet at the same point, and every run without further updates
  ends with all core threads gone when the library is freed**.
-/

namespace Hmon
open Lib

/-- The shared state; `pending` are the threads that have not yet decremented `uptodate`. -/
structure Shutdown (n : Nat) where
  core : Fin n → CorePhase
  frames : List CallerPhase
  ending : CallerPhase
  uptodate : Int
  threadsStop : Bool
  pending : Finset (Fin n)

inductive ShutdownLabel (n : Nat)
  /-- A call of `hmon_update`, of the program or of the handler: its compare-and-swap. -/
  | update
  /-- The innermost call of the main thread calls `pthread_barrier_wait`, or returns. -/
  | arriveMain
  | ret
  | finalize
  | arriveCore (i : Fin n)
  | check (i : Fin n)
  | decrement (i : Fin n)
  | loop (i : Fin n)
  deriving DecidableEq

/-- The first and the second `pthread_barrier_wait` of a round. -/
inductive Point
  | first
  | second
  deriving DecidableEq

/-- Where the core thread waits. -/
def CorePhase.point : CorePhase → Option Point
  | inFirst => some .first
  | inSecond | inExit => some .second
  | _ => none

def CallerPhase.point : CallerPhase → Option Point
  | inFirst => some .first
  | inSecond => some .second
  | _ => none

/-- After the first barrier of the shutdown. -/
def CorePhase.leaving : CorePhase → Bool
  | check | toExit | inExit => true
  | _ => false

theorem CorePhase.release_leaving {p : CorePhase} (hw : p.waiting = true) (hl : p.leaving = true) :
    p.release = .exited := by
  cases p <;> simp_all [waiting, leaving, release]

/-- A call that arrives at the barrier was about to. -/
theorem CallerPhase.arrive_cases {p q : CallerPhase} (h : p.arrive = some q) :
    p = .toFirst ∧ q = .inFirst ∨ p = .toSecond ∧ q = .inSecond := by
  cases p <;> first | cases h; exact Or.inl ⟨rfl, rfl⟩ | cases h; exact Or.inr ⟨rfl, rfl⟩ | cases h

theorem CorePhase.arrive_cases {p q : CorePhase} (h : p.arrive = some q) :
    p = .toFirst ∧ q = .inFirst ∨ p = .toSecond ∧ q = .inSecond ∨ p = .toExit ∧ q = .inExit := by
  cases p <;> first
    | cases h; exact Or.inl ⟨rfl, rfl⟩
    | cases h; exact Or.inr (Or.inl ⟨rfl, rfl⟩)
    | cases h; exact Or.inr (Or.inr ⟨rfl, rfl⟩)
    | cases h

/-- The steps that a core thread has left without a further update; `ahead` says that the first barrier of a round is
ahead, `stop` is `threads_stop`. -/
def CorePhase.steps (ahead stop : Bool) : CorePhase → Nat
  | restarting => 6 + if ahead then 7 else 0
  | toFirst => 5 + if ahead then 7 else 0
  | inFirst => 4 + if ahead then 7 else 0
  | check => if stop then 3 else 10
  | toSecond => 9
  | inSecond => 8
  | working => 7
  | toExit => 2
  | inExit => 1
  | exited => 0

theorem CorePhase.steps_stop (p : CorePhase) (ahead stop : Bool) : p.steps ahead true ≤ p.steps ahead stop := by
  cases p <;> cases ahead <;> cases stop <;> decide

/-- The test of `threads_stop` is a step. -/
theorem CorePhase.steps_check (ahead stop : Bool) :
    (if stop = true then toExit else toSecond).steps ahead stop < check.steps ahead stop := by
  cases ahead <;> cases stop <;> decide

/-- The steps that a call has left, `out` being `hmon_lib_finalize` before its call. -/
def CallerPhase.steps : CallerPhase → Nat
  | out => 6
  | toFirst => 5
  | inFirst => 4
  | toSecond => 3
  | inSecond => 2
  | after => 1

/-- Before the end of the first wait. -/
def CallerPhase.ahead : CallerPhase → Bool
  | toFirst | inFirst => true
  | _ => false

theorem CorePhase.eq_inFirst {p : CorePhase} (hw : p.waiting = true) (hb : p.between = true) : p = .inFirst := by
  cases p <;> simp_all [waiting, between]

theorem CorePhase.eq_inSecond {p : CorePhase} (hw : p.waiting = true) (hm : p.middle = true) : p = .inSecond := by
  cases p <;> simp_all [waiting, middle]

theorem CorePhase.eq_inExit {p : CorePhase} (hw : p.waiting = true) (hl : p.leaving = true) : p = .inExit := by
  cases p <;> simp_all [waiting, leaving]

variable {n : Nat}

namespace Shutdown

/-- All calls on the main thread. -/
def callers (s : Shutdown n) : List CallerPhase := s.ending :: s.frames

/-- The number of parties in `pthread_barrier_wait`. -/
def waitingCount (s : Shutdown n) : Nat :=
  (Finset.univ.filter fun i => (s.core i).waiting).card + s.callers.countP CallerPhase.waiting

def release (s : Shutdown n) : Shutdown n :=
  { s with
    core := fun i => (s.core i).release
    frames := s.frames.map CallerPhase.release
    ending := s.ending.release }

/-- A round is before its first barrier. -/
def ahead (s : Shutdown n) : Bool := s.frames.any CallerPhase.ahead

/-- The steps that remain when no update is called any more. -/
def steps (s : Shutdown n) : Nat :=
  total (fun i => (s.core i).steps s.ahead s.threadsStop) (List.finRange n) + total CallerPhase.steps s.callers

def barrier (s : Shutdown n) : Shutdown n := if s.waitingCount = n + 1 then s.release else s

/-- A party arrives at the barrier. -/
def arrive (s : Shutdown n) : ShutdownLabel n → Option (Shutdown n)
  | .arriveMain =>
    match s.frames with
    | [] => s.ending.arrive.map fun p => { s with ending := p }
    | q :: qs => q.arrive.map fun p => { s with frames := p :: qs }
  | .arriveCore i => (s.core i).arrive.map fun p => { s with core := Function.update s.core i p }
  | _ => none

def next (s : Shutdown n) : ShutdownLabel n → Option (Shutdown n)
  | .update =>
    if s.ending = .out then
      if s.uptodate = 0 then
        some { s with uptodate := n, pending := Finset.univ, frames := .toFirst :: s.frames }
      else some s
    else none
  | .arriveMain => (s.arrive .arriveMain).map barrier
  | .ret =>
    match s.frames with
    | .after :: qs => some { s with frames := qs }
    | _ => none
  | .finalize =>
    if s.frames = [] ∧ s.ending = .out then some { s with threadsStop := true, ending := .toFirst } else none
  | .arriveCore i => (s.arrive (.arriveCore i)).map barrier
  | .check i =>
    if s.core i = .check then
      some { s with core := Function.update s.core i (if s.threadsStop then .toExit else .toSecond) }
    else none
  | .decrement i =>
    if s.core i = .working then
      some { s with
        uptodate := s.uptodate - 1, pending := s.pending.erase i, core := Function.update s.core i .restarting }
    else none
  | .loop i =>
    if s.core i = .restarting then some { s with core := Function.update s.core i .toFirst } else none

/-- After `hmon_lib_init`. -/
def init : Shutdown n := ⟨fun _ => .toFirst, [], .out, 0, false, ∅⟩

end Shutdown

def shutdownSys : Lts (Shutdown n) (ShutdownLabel n) := ⟨Shutdown.next⟩

def InitialShutdown (s : Shutdown n) : Prop := s = Shutdown.init

/-- All parties at the barrier wait at the same point. -/
def Aligned (s : Shutdown n) : Prop :=
  ∃ p : Point, (∀ i q, (s.core i).point = some q → q = p) ∧ ∀ c ∈ s.callers, ∀ q, c.point = some q → q = p

/-- The library is finalized and nobody uses it any more. -/
structure Done (s : Shutdown n) : Prop where
  frames : s.frames = []
  ending : s.ending = .after
  core : ∀ i, s.core i = .exited

/-- At most one call is between its compare-and-swap, or its `threads_stop = 1`, and the end of its second wait. -/
def OneInRound (s : Shutdown n) : Prop := s.callers.countP (fun c => !c.free) ≤ 1

/-! ## Where a round or the shutdown is -/

/-- No `hmon_lib_finalize` yet. -/
structure Running (s : Shutdown n) : Prop where
  ending : s.ending = .out
  stop : s.threadsStop = false

/-- The thread is in its passes, or has finished its round. -/
def Lap (s : Shutdown n) (i : Fin n) : Prop :=
  (i ∈ s.pending → s.core i = .working) ∧ (i ∉ s.pending → (s.core i).between = true)

/-- All calls of the list have passed their second wait. -/
def AllAfter (qs : List CallerPhase) : Prop := ∀ q ∈ qs, q = .after

theorem AllAfter.countP {qs : List CallerPhase} (h : AllAfter qs) {f : CallerPhase → Bool} (hf : f .after = false) :
    qs.countP f = 0 := by
  rw [List.countP_eq_zero]
  intro q hq
  rw [h q hq, hf]
  exact Bool.false_ne_true

theorem AllAfter.not_waiting {qs : List CallerPhase} (h : AllAfter qs) : ¬ ∃ c ∈ qs, c.waiting = true := by
  rintro ⟨c, hc, hw⟩
  rw [h c hc] at hw
  cases hw

theorem AllAfter.release {qs : List CallerPhase} (h : AllAfter qs) : AllAfter (qs.map CallerPhase.release) := by
  intro q hq
  obtain ⟨r, hr, rfl⟩ := List.mem_map.mp hq
  rw [h r hr]
  rfl

theorem Lap.eq_inFirst {s : Shutdown n} {i : Fin n} (h : Lap s i) (hw : (s.core i).waiting = true) :
    s.core i = .inFirst := by
  refine CorePhase.eq_inFirst hw (h.2 fun hi => ?_)
  rw [h.1 hi] at hw
  cases hw

/-- A thread that has finished its round moves on between rounds. -/
theorem Lap.update_between {s : Shutdown n} {i : Fin n} {q : CorePhase} (h : ∀ j, Lap s j) (hi : i ∉ s.pending)
    (hq : q.between = true) (j : Fin n) : Lap { s with core := Function.update s.core i q } j := by
  by_cases hj : j = i
  · subst hj
    refine ⟨fun hmem => absurd hmem hi, fun _ => ?_⟩
    show (Function.update s.core j q j).between = true
    rw [Function.update_self]
    exact hq
  · have hcj : Function.update s.core i q j = s.core j := Function.update_of_ne hj ..
    exact ⟨fun hmem => hcj.trans ((h j).1 hmem), fun hmem => (congrArg _ hcj).trans ((h j).2 hmem)⟩

/-- A thread signals that it has finished its round. -/
theorem Lap.finish {s : Shutdown n} {i : Fin n} {u : Int} (h : ∀ j, Lap s j) (j : Fin n) : Lap { s with
    uptodate := u
    pending := s.pending.erase i
    core := Function.update s.core i .restarting } j := by
  by_cases hj : j = i
  · subst hj
    refine ⟨fun hmem => absurd hmem (Finset.notMem_erase j _), fun _ => ?_⟩
    show (Function.update s.core j .restarting j).between = true
    rw [Function.update_self]
    rfl
  · have hcj : Function.update s.core i .restarting j = s.core j := Function.update_of_ne hj ..
    exact ⟨fun hmem => hcj.trans ((h j).1 (Finset.mem_of_mem_erase hmem)),
      fun hmem => (congrArg _ hcj).trans ((h j).2 fun hp => hmem (Finset.mem_erase.mpr ⟨hj, hp⟩))⟩

namespace Shutdown

inductive Stage (s : Shutdown n) : Prop
  | first {p : CallerPhase} {qs : List CallerPhase} : s.frames = p :: qs → p = .toFirst ∨ p = .inFirst → AllAfter qs →
      Running s → s.pending = Finset.univ → (∀ i, (s.core i).between) → Stage s
  | second {p : CallerPhase} {qs : List CallerPhase} : s.frames = p :: qs → p = .toSecond ∨ p = .inSecond →
      AllAfter qs → Running s → s.pending = Finset.univ → (∀ i, (s.core i).middle) → Stage s
  | work : AllAfter s.frames → Running s → (∀ i, Lap s i) → Stage s
  | last : s.frames = [] → s.ending = .toFirst ∨ s.ending = .inFirst → s.threadsStop = true → (∀ i, Lap s i) → Stage s
  | leave : s.frames = [] → s.ending = .toSecond ∨ s.ending = .inSecond → s.threadsStop = true →
      (∀ i, (s.core i).leaving) → Stage s
  | done : s.frames = [] → s.ending = .after → (∀ i, s.core i = .exited) → Stage s

/-- The barrier is not full. -/
def Closed (s : Shutdown n) : Prop := ¬ ((∀ i, (s.core i).waiting = true) ∧ ∃ c ∈ s.callers, c.waiting = true)

structure Inv (s : Shutdown n) : Prop where
  count : s.uptodate = s.pending.card
  closed : s.Closed
  stage : s.Stage

theorem inv_init : Inv (init : Shutdown n) := by
  refine ⟨rfl, fun h => ?_, .work (fun _ => (absurd · List.not_mem_nil)) ⟨rfl, rfl⟩
    fun _ => ⟨fun h => absurd h (Finset.notMem_empty _), fun _ => rfl⟩⟩
  obtain ⟨-, c, hc, hw⟩ := h
  rw [List.mem_singleton.mp hc] at hw
  cases hw

/-! ## The barrier opens for all or for nobody -/

section Barrier
variable {s : Shutdown n}

/-- Of the calls on the main thread at most one is in a round or in the shutdown. -/
theorem Stage.countP_le {f : CallerPhase → Bool} (ho : f .out = false) (ha : f .after = false) (h : s.Stage) :
    s.callers.countP f ≤ 1 := by
  unfold callers
  cases h with
  | @first p qs hf _ hq hr | @second p qs hf _ hq hr =>
    rw [hf, hr.ending, List.countP_cons_of_neg (by rw [ho]; exact Bool.false_ne_true), List.countP_cons, hq.countP ha]
    split_ifs <;> omega
  | work hq hr =>
    rw [hr.ending, List.countP_cons_of_neg (by rw [ho]; exact Bool.false_ne_true), hq.countP ha]
    exact Nat.zero_le 1
  | last hf | leave hf | done hf =>
    rw [hf]
    exact (List.countP_le_length).trans (Nat.le_refl 1)

theorem full_iff (h : s.callers.countP CallerPhase.waiting ≤ 1) : s.waitingCount = n + 1 ↔
    (∀ i, (s.core i).waiting = true) ∧ ∃ c ∈ s.callers, c.waiting = true := by
  unfold waitingCount
  have hcore : (Finset.univ.filter fun i => (s.core i).waiting).card ≤ n := by
    simpa using Finset.card_le_univ (Finset.univ.filter fun i => (s.core i).waiting = true)
  have hall : (Finset.univ.filter fun i => (s.core i).waiting).card = n ↔ ∀ i, (s.core i).waiting = true := by
    rw [← Finset.filter_eq_self.trans (forall_congr' fun i => imp_iff_right (Finset.mem_univ i)),
      ← Finset.card_eq_iff_eq_univ, Fintype.card_fin]
  rw [← List.countP_pos_iff, ← hall]
  omega

theorem release_not_waiting : ∀ c ∈ s.release.callers, c.waiting = false := by
  have hrel : ∀ p : CallerPhase, p.release.waiting = false := fun p => by cases p <;> rfl
  intro c hc
  simp only [callers, release, List.mem_cons, List.mem_map] at hc
  rcases hc with rfl | ⟨q, -, rfl⟩ <;> exact hrel _

/-- When all parties wait, all go on to the next stage. -/
theorem Stage.release (h : s.Stage) (hw : ∀ i, (s.core i).waiting = true) (hc : ∃ c ∈ s.callers, c.waiting = true) :
    s.release.Stage := by
  obtain ⟨c, hc, hcw⟩ := hc
  rcases List.mem_cons.mp hc with rfl | hc
  · -- the shutdown waits
    cases h with
    | first _ _ _ hr | second _ _ _ hr | work _ hr =>
      rw [hr.ending] at hcw
      cases hcw
    | last hf he hs hl =>
      rcases he with he | he
      · rw [he] at hcw
        cases hcw
      · refine .leave (by simp [Shutdown.release, hf]) (Or.inl (by simp [Shutdown.release, he, CallerPhase.release])) hs
          fun i => ?_
        show ((s.core i).release).leaving = true
        rw [(hl i).eq_inFirst (hw i)]
        rfl
    | leave hf he hs hl =>
      rcases he with he | he
      · rw [he] at hcw
        cases hcw
      · exact .done (by simp [Shutdown.release, hf]) (by simp [Shutdown.release, he, CallerPhase.release])
          fun i => CorePhase.release_leaving (hw i) (hl i)
    | done hf he =>
      rw [he] at hcw
      cases hcw
  · -- an update waits
    cases h with
    | @first p qs hf hp hq hr hpend hcore =>
      rw [hf] at hc
      rcases List.mem_cons.mp hc with rfl | hc
      · rcases hp with rfl | rfl
        · cases hcw
        · have hframes : s.release.frames = .toSecond :: qs.map CallerPhase.release := by
            simp [Shutdown.release, hf, CallerPhase.release]
          have hend : s.release.ending = .out := by simp [Shutdown.release, hr.ending, CallerPhase.release]
          exact .second hframes (Or.inl rfl) hq.release ⟨hend, hr.stop⟩ hpend
            fun i => CorePhase.release_between (hw i) (hcore i)
      · exact absurd ⟨c, hc, hcw⟩ hq.not_waiting
    | @second p qs hf hp hq hr hpend hcore =>
      rw [hf] at hc
      rcases List.mem_cons.mp hc with rfl | hc
      · rcases hp with rfl | rfl
        · cases hcw
        · refine .work ?_ ⟨?_, hr.stop⟩ fun i => ⟨fun _ => CorePhase.release_middle (hw i) (hcore i), fun hi => ?_⟩
          · intro q hmem
            simp only [Shutdown.release, hf, List.map_cons, List.mem_cons] at hmem
            exact hmem.elim (fun he => he) fun hmem => hq.release q hmem
          · simp [Shutdown.release, hr.ending, CallerPhase.release]
          · exact absurd (hpend ▸ Finset.mem_univ i) hi
      · exact absurd ⟨c, hc, hcw⟩ hq.not_waiting
    | work hq => exact absurd ⟨c, hc, hcw⟩ hq.not_waiting
    | last hf | leave hf | done hf =>
      rw [hf] at hc
      cases hc

/-- After an arrival the barrier is closed, or has let everybody go on. -/
theorem Stage.barrier (h : s.Stage) : s.barrier.Stage ∧ s.barrier.Closed := by
  have hiff := full_iff (h.countP_le (f := CallerPhase.waiting) rfl rfl)
  unfold Shutdown.barrier
  split_ifs with hfull
  · obtain ⟨hw, hc⟩ := hiff.mp hfull
    refine ⟨h.release hw hc, fun hcl => ?_⟩
    obtain ⟨-, c, hmem, hcw⟩ := hcl
    rw [release_not_waiting c hmem] at hcw
    cases hcw
  · exact ⟨h, fun hcl => hfull (hiff.mpr hcl)⟩

/-- An arrival stays in its stage. -/
theorem Stage.arriveMain {s₁ : Shutdown n} (h : s.Stage) (hn : s.arrive .arriveMain = some s₁) : s₁.Stage := by
  unfold Shutdown.arrive at hn
  cases h with
  | @first p qs hf hp hq hr hpend hcore =>
    rw [hf] at hn
    obtain ⟨q, hpq, rfl⟩ := Option.map_eq_some_iff.mp hn
    rcases CallerPhase.arrive_cases hpq with ⟨-, rfl⟩ | ⟨rfl, -⟩
    · exact .first rfl (Or.inr rfl) hq ⟨hr.ending, hr.stop⟩ hpend hcore
    · rcases hp with hp | hp <;> cases hp
  | @second p qs hf hp hq hr hpend hcore =>
    rw [hf] at hn
    obtain ⟨q, hpq, rfl⟩ := Option.map_eq_some_iff.mp hn
    rcases CallerPhase.arrive_cases hpq with ⟨rfl, -⟩ | ⟨-, rfl⟩
    · rcases hp with hp | hp <;> cases hp
    · exact .second rfl (Or.inr rfl) hq ⟨hr.ending, hr.stop⟩ hpend hcore
  | work hq hr =>
    cases hf : s.frames with
    | nil =>
      rw [hf, hr.ending] at hn
      cases hn
    | cons q qs =>
      rw [hf, hq q (by rw [hf]; exact List.mem_cons_self)] at hn
      cases hn
  | last hf he hs hl =>
    rw [hf] at hn
    obtain ⟨q, hpq, rfl⟩ := Option.map_eq_some_iff.mp hn
    rcases CallerPhase.arrive_cases hpq with ⟨-, rfl⟩ | ⟨hp, -⟩
    · exact .last rfl (Or.inr rfl) hs hl
    · rw [hp] at he
      rcases he with he | he <;> cases he
  | leave hf he hs hl =>
    rw [hf] at hn
    obtain ⟨q, hpq, rfl⟩ := Option.map_eq_some_iff.mp hn
    rcases CallerPhase.arrive_cases hpq with ⟨hp, -⟩ | ⟨-, rfl⟩
    · rw [hp] at he
      rcases he with he | he <;> cases he
    · exact .leave rfl (Or.inr rfl) hs hl
  | done hf he =>
    rw [hf, he] at hn
    cases hn

theorem Stage.arriveCore {i : Fin n} {s₁ : Shutdown n} (h : s.Stage) (hn : s.arrive (.arriveCore i) = some s₁) :
    s₁.Stage := by
  obtain ⟨q, hpq, rfl⟩ := Option.map_eq_some_iff.mp hn
  have hphase := CorePhase.arrive_cases hpq
  have hother : ∀ {f : CorePhase → Prop}, f q → (∀ j, f (s.core j)) → ∀ j, f (Function.update s.core i q j) :=
    fun {f} hq hall => (Function.forall_update_iff s.core fun _ p => f p).mpr ⟨hq, fun j _ => hall j⟩
  -- a thread that is not pending is between rounds, before and after its arrival at the first barrier
  have hlap : (∀ j, Lap s j) → ∀ j, Lap { s with core := Function.update s.core i q } j := by
    intro hl
    have hpend : i ∉ s.pending := fun hmem => by
      rw [(hl i).1 hmem] at hpq
      cases hpq
    refine Lap.update_between hl hpend ?_
    rcases hphase with ⟨-, rfl⟩ | ⟨hc, -⟩ | ⟨hc, -⟩
    · rfl
    · exact phase_absurd ((hl i).2 hpend) hc rfl
    · exact phase_absurd ((hl i).2 hpend) hc rfl
  cases h with
  | @first p qs hf hp hq hr hpend hcore =>
    refine .first hf hp hq ⟨hr.ending, hr.stop⟩ hpend (hother (f := fun p => p.between = true) ?_ hcore)
    rcases hphase with ⟨-, rfl⟩ | ⟨hc, -⟩ | ⟨hc, -⟩
    · rfl
    · exact phase_absurd (hcore i) hc rfl
    · exact phase_absurd (hcore i) hc rfl
  | @second p qs hf hp hq hr hpend hcore =>
    refine .second hf hp hq ⟨hr.ending, hr.stop⟩ hpend (hother (f := fun p => p.middle = true) ?_ hcore)
    rcases hphase with ⟨hc, -⟩ | ⟨-, rfl⟩ | ⟨hc, -⟩
    · exact phase_absurd (hcore i) hc rfl
    · rfl
    · exact phase_absurd (hcore i) hc rfl
  | work hq hr hl => exact .work hq ⟨hr.ending, hr.stop⟩ (hlap hl)
  | last hf he hs hl => exact .last hf he hs (hlap hl)
  | leave hf he hs hl =>
    refine .leave hf he hs (hother (f := fun p => p.leaving = true) ?_ hl)
    rcases hphase with ⟨hc, -⟩ | ⟨hc, -⟩ | ⟨-, rfl⟩
    · exact phase_absurd (hl i) hc rfl
    · exact phase_absurd (hl i) hc rfl
    · rfl
  | done _ _ hex =>
    rw [hex i] at hpq
    cases hpq

end Barrier

/-! ## The steps -/

section Steps
variable {s s' : Shutdown n}

/-- An arrival, and the opening of the barrier that may follow. -/
theorem Inv.arrived {s₁ : Shutdown n} (h : s.Inv) (hu : s₁.uptodate = s.uptodate) (hp : s₁.pending = s.pending)
    (hs : s₁.Stage) : s₁.barrier.Inv := by
  have hfields : s₁.barrier.uptodate = s₁.uptodate ∧ s₁.barrier.pending = s₁.pending := by
    unfold Shutdown.barrier
    split_ifs <;> exact ⟨rfl, rfl⟩
  obtain ⟨hst, hcl⟩ := hs.barrier
  exact ⟨by rw [hfields.1, hfields.2, hu, hp, h.count], hcl, hst⟩

theorem arrive_fields {s₁ : Shutdown n} {l : ShutdownLabel n} (h : s.arrive l = some s₁) :
    s₁.uptodate = s.uptodate ∧ s₁.pending = s.pending := by
  cases l with
  | arriveMain =>
    simp only [arrive] at h
    split at h
    · obtain ⟨q, -, rfl⟩ := Option.map_eq_some_iff.mp h
      exact ⟨rfl, rfl⟩
    · obtain ⟨q, -, rfl⟩ := Option.map_eq_some_iff.mp h
      exact ⟨rfl, rfl⟩
  | arriveCore i =>
    obtain ⟨q, -, rfl⟩ := Option.map_eq_some_iff.mp h
    exact ⟨rfl, rfl⟩
  | update | ret | finalize | check i | decrement i | loop i => cases h

theorem Inv.arrive {s₁ : Shutdown n} {l : ShutdownLabel n} (h : s.Inv) (hn : s.arrive l = some s₁) : s₁.Stage := by
  cases l with
  | arriveMain => exact h.stage.arriveMain hn
  | arriveCore i => exact h.stage.arriveCore hn
  | update | ret | finalize | check i | decrement i | loop i => cases hn

/-- Outside the rounds and the shutdown nobody but the core threads can wait. -/
theorem Closed.of_after (hq : AllAfter s.frames) (he : s.ending.waiting = false) : s.Closed := by
  rintro ⟨-, c, hc, hw⟩
  rcases List.mem_cons.mp hc with rfl | hc
  · rw [he] at hw
    cases hw
  · exact hq.not_waiting ⟨c, hc, hw⟩

/-- A core thread that does not wait keeps the barrier closed. -/
theorem Closed.of_core {i : Fin n} (h : (s.core i).waiting = false) : s.Closed := by
  rintro ⟨hall, -⟩
  rw [hall i] at h
  cases h

/-- The compare-and-swap succeeds only between rounds. -/
theorem Inv.update (hn0 : 0 < n) (h : s.Inv) (hn : s.next .update = some s') : s'.Inv := by
  simp only [next] at hn
  split_ifs at hn with he h0
  · cases hn
    obtain ⟨hempty, hne⟩ := none_pending hn0 (h.count.symm.trans h0)
    cases h.stage with
    | first _ _ _ _ hp | second _ _ _ _ hp => exact absurd hp hne
    | work hq hr hl =>
      refine ⟨by rw [Finset.card_univ, Fintype.card_fin], ?_, ?_⟩
      · rintro ⟨-, c, hc, hw⟩
        rcases List.mem_cons.mp hc with rfl | hc
        · rw [show _ = CallerPhase.out from he] at hw
          cases hw
        · rcases List.mem_cons.mp hc with rfl | hc
          · cases hw
          · exact hq.not_waiting ⟨c, hc, hw⟩
      · exact .first rfl (Or.inl rfl) hq ⟨hr.ending, hr.stop⟩ rfl fun i =>
          (hl i).2 (by rw [hempty]; exact Finset.notMem_empty i)
    | last _ hend | leave _ hend =>
      rw [he] at hend
      rcases hend with hend | hend <;> cases hend
    | done _ hend =>
      rw [he] at hend
      cases hend
  · cases hn
    exact h

theorem Inv.ret (h : s.Inv) (hn : s.next .ret = some s') : s'.Inv := by
  simp only [next] at hn
  split at hn
  · rename_i qs hf
    cases hn
    have hclosed : ∀ {e : CallerPhase}, s.ending = e → e.waiting = false → AllAfter qs →
        Closed { s with frames := qs } := fun he hw hq => Closed.of_after hq (by rw [he]; exact hw)
    cases h.stage with
    | @first p qs' hf' hp =>
      rw [hf] at hf'
      cases hf'
      rcases hp with hp | hp <;> cases hp
    | @second p qs' hf' hp =>
      rw [hf] at hf'
      cases hf'
      rcases hp with hp | hp <;> cases hp
    | work hq hr hl =>
      have hq' : AllAfter qs := fun q hmem => hq q (by rw [hf]; exact List.mem_cons_of_mem _ hmem)
      exact ⟨h.count, hclosed hr.ending rfl hq', .work hq' ⟨hr.ending, hr.stop⟩ hl⟩
    | last hf' | leave hf' | done hf' =>
      rw [hf] at hf'
      cases hf'
  · cases hn

theorem Inv.finalize (h : s.Inv) (hn : s.next .finalize = some s') : s'.Inv := by
  simp only [next] at hn
  split_ifs at hn with hc
  cases hn
  have hclosed : Closed { s with threadsStop := true, ending := .toFirst } := by
    refine Closed.of_after ?_ rfl
    rw [show Shutdown.frames _ = [] from hc.1]
    exact fun _ hq => absurd hq List.not_mem_nil
  cases h.stage with
  | first hf | second hf =>
    rw [hc.1] at hf
    cases hf
  | work hq hr hl => exact ⟨h.count, hclosed, .last hc.1 (Or.inl rfl) rfl hl⟩
  | last _ hend | leave _ hend =>
    rw [hc.2] at hend
    rcases hend with hend | hend <;> cases hend
  | done _ hend =>
    rw [hc.2] at hend
    cases hend

/-- A step of one core thread, which does not wait afterwards. -/
theorem Inv.core_step {i : Fin n} {q : CorePhase} (h : s.Inv) (hq : q.waiting = false)
    (hs : Stage { s with core := Function.update s.core i q }) : Inv { s with core := Function.update s.core i q } := by
  refine ⟨h.count, Closed.of_core (i := i) ?_, hs⟩
  show (Function.update s.core i q i).waiting = false
  rw [Function.update_self]
  exact hq

/-- The test of `threads_stop` sends all threads to the same second barrier. -/
theorem Inv.check_stop (h : s.Inv) {i : Fin n} (hi : s.core i = .check) : Inv
    { s with core := Function.update s.core i (if s.threadsStop = true then .toExit else .toSecond) } := by
  have hother : ∀ {f : CorePhase → Bool} {q : CorePhase}, f q = true → (∀ j, f (s.core j) = true) →
      ∀ j, f (Function.update s.core i q j) = true := fun {f q} hq hall =>
    (Function.forall_update_iff s.core fun _ p => f p = true).mpr ⟨hq, fun j _ => hall j⟩
  cases h.stage with
  | first _ _ _ _ _ hcore => exact phase_absurd (hcore i) hi rfl
  | second hf hp hq hr hpend hcore =>
    rw [if_neg (by rw [hr.stop]; exact Bool.false_ne_true)]
    exact h.core_step rfl (.second hf hp hq ⟨hr.ending, hr.stop⟩ hpend (hother (f := CorePhase.middle) rfl hcore))
  | work _ _ hl | last _ _ _ hl =>
    by_cases hmem : i ∈ s.pending
    · exact absurd (hi.symm.trans ((hl i).1 hmem)) (by decide)
    · exact phase_absurd ((hl i).2 hmem) hi rfl
  | leave hf he hs hl =>
    rw [if_pos hs]
    exact h.core_step rfl (.leave hf he hs (hother (f := CorePhase.leaving) rfl hl))
  | done _ _ hex => exact absurd (hi.symm.trans (hex i)) (by decide)

theorem Inv.check (h : s.Inv) {i : Fin n} (hn : s.next (.check i) = some s') : s'.Inv := by
  simp only [next] at hn
  by_cases hi : s.core i = .check
  · rw [if_pos hi, Option.some.injEq] at hn
    subst hn
    exact h.check_stop hi
  · rw [if_neg hi] at hn
    cases hn

theorem Inv.loop (h : s.Inv) {i : Fin n} (hn : s.next (.loop i) = some s') : s'.Inv := by
  simp only [next] at hn
  split_ifs at hn with hi
  cases hn
  have hlap : (∀ j, Lap s j) → ∀ j, Lap { s with core := Function.update s.core i .toFirst } j := fun hl =>
    Lap.update_between hl (fun hmem => absurd (hi.symm.trans ((hl i).1 hmem)) (by decide)) rfl
  refine h.core_step rfl ?_
  cases h.stage with
  | first hf hp hq hr hpend hcore =>
    exact .first hf hp hq ⟨hr.ending, hr.stop⟩ hpend
      ((Function.forall_update_iff s.core fun _ p => p.between = true).mpr ⟨rfl, fun j _ => hcore j⟩)
  | second _ _ _ _ _ hcore => exact phase_absurd (hcore i) hi rfl
  | work hq hr hl => exact .work hq ⟨hr.ending, hr.stop⟩ (hlap hl)
  | last hf he hs hl => exact .last hf he hs (hlap hl)
  | leave _ _ _ hl => exact phase_absurd (hl i) hi rfl
  | done _ _ hex => exact absurd (hi.symm.trans (hex i)) (by decide)

/-- A thread decrements `uptodate` once, after the second barrier. -/
theorem Inv.decrement (h : s.Inv) {i : Fin n} (hn : s.next (.decrement i) = some s') : s'.Inv := by
  simp only [next] at hn
  split_ifs at hn with hi
  cases hn
  have hmem : (∀ j, Lap s j) → i ∈ s.pending := by
    intro hl
    by_contra hmem
    exact phase_absurd ((hl i).2 hmem) hi rfl
  have hcount : i ∈ s.pending → s.uptodate - 1 = ((s.pending.erase i).card : Int) := by
    intro hmem
    have hpos := Finset.card_pos.mpr ⟨i, hmem⟩
    rw [h.count, Finset.card_erase_of_mem hmem]
    omega
  have hclosed : Closed { s with
      uptodate := s.uptodate - 1
      pending := s.pending.erase i
      core := Function.update s.core i .restarting } := by
    refine Closed.of_core (i := i) ?_
    show (Function.update s.core i .restarting i).waiting = false
    rw [Function.update_self]
    rfl
  cases h.stage with
  | first _ _ _ _ _ hcore => exact phase_absurd (hcore i) hi rfl
  | second _ _ _ _ _ hcore => exact phase_absurd (hcore i) hi rfl
  | work hq hr hl => exact ⟨hcount (hmem hl), hclosed, .work hq ⟨hr.ending, hr.stop⟩ (Lap.finish hl)⟩
  | last hf he hs hl => exact ⟨hcount (hmem hl), hclosed, .last hf he hs (Lap.finish hl)⟩
  | leave _ _ _ hl => exact phase_absurd (hl i) hi rfl
  | done _ _ hex => exact absurd (hi.symm.trans (hex i)) (by decide)

theorem Inv.step (hn0 : 0 < n) (h : s.Inv) {l : ShutdownLabel n} (hn : s.next l = some s') : s'.Inv := by
  cases l with
  | update => exact h.update hn0 hn
  | arriveMain =>
    obtain ⟨s₁, ha, rfl⟩ := Option.map_eq_some_iff.mp hn
    exact h.arrived (arrive_fields ha).1 (arrive_fields ha).2 (h.arrive ha)
  | ret => exact h.ret hn
  | finalize => exact h.finalize hn
  | arriveCore i =>
    obtain ⟨s₁, ha, rfl⟩ := Option.map_eq_some_iff.mp hn
    exact h.arrived (arrive_fields ha).1 (arrive_fields ha).2 (h.arrive ha)
  | check i => exact h.check hn
  | decrement i => exact h.decrement hn
  | loop i => exact h.loop hn

theorem inv_reach (hn0 : 0 < n) (h : shutdownSys.Reach InitialShutdown Lts.always s) : s.Inv := by
  refine h.invariant (fun s hs => ?_) fun s l s' hi _ hn => hi.step hn0 hn
  obtain rfl := hs
  exact inv_init

/-! ## All parties wait at the same point -/

omit s' in
theorem Stage.aligned (h : s.Stage) : Aligned s := by
  have between : ∀ {p : CorePhase} {q : Point}, p.between = true → p.point = some q → q = .first := by
    intro p q hb hp
    cases p <;> simp_all [CorePhase.between, CorePhase.point]
  have middle : ∀ {p : CorePhase} {q : Point}, p.middle = true → p.point = some q → q = .second := by
    intro p q hb hp
    cases p <;> simp_all [CorePhase.middle, CorePhase.point]
  have leaving : ∀ {p : CorePhase} {q : Point}, p.leaving = true → p.point = some q → q = .second := by
    intro p q hb hp
    cases p <;> simp_all [CorePhase.leaving, CorePhase.point]
  have lap : (∀ i, Lap s i) → ∀ i q, (s.core i).point = some q → q = .first := by
    intro hl i q hp
    by_cases hi : i ∈ s.pending
    · rw [(hl i).1 hi] at hp
      cases hp
    · exact between ((hl i).2 hi) hp
  -- a call in the phases `p` waits at the point of `p`, the others do not wait
  have calls : ∀ {p : CallerPhase} {qs : List CallerPhase} {a : Point}, AllAfter qs →
      (∀ q, p.point = some q → q = a) → ∀ c ∈ p :: qs, ∀ q, c.point = some q → q = a := by
    intro p qs a hq hp c hc q hcq
    rcases List.mem_cons.mp hc with rfl | hc
    · exact hp q hcq
    · rw [hq c hc] at hcq
      cases hcq
  have out : ∀ {a : Point} (q : Point), CallerPhase.point .out = some q → q = a := fun q hq => by cases hq
  unfold Aligned callers
  cases h with
  | first hf hp hq hr _ hcore =>
    refine ⟨.first, fun i q => between (hcore i), ?_⟩
    rw [hf, hr.ending]
    intro c hc
    rcases List.mem_cons.mp hc with rfl | hc
    · exact out
    · refine calls hq (fun q hpq => ?_) c hc
      rcases hp with rfl | rfl <;> cases hpq
      rfl
  | second hf hp hq hr _ hcore =>
    refine ⟨.second, fun i q => middle (hcore i), ?_⟩
    rw [hf, hr.ending]
    intro c hc
    rcases List.mem_cons.mp hc with rfl | hc
    · exact out
    · refine calls hq (fun q hpq => ?_) c hc
      rcases hp with rfl | rfl <;> cases hpq
      rfl
  | work hq hr hl =>
    refine ⟨.first, lap hl, ?_⟩
    rw [hr.ending]
    exact calls hq out
  | last hf he _ hl =>
    refine ⟨.first, lap hl, ?_⟩
    rw [hf]
    refine calls (fun _ hq => absurd hq List.not_mem_nil) fun q hpq => ?_
    rcases he with he | he <;> rw [he] at hpq <;> cases hpq
    rfl
  | leave hf he _ hl =>
    refine ⟨.second, fun i q => leaving (hl i), ?_⟩
    rw [hf]
    refine calls (fun _ hq => absurd hq List.not_mem_nil) fun q hpq => ?_
    rcases he with he | he <;> rw [he] at hpq <;> cases hpq
    rfl
  | done hf he hex =>
    refine ⟨.second, fun i q hp => ?_, ?_⟩
    · rw [hex i] at hp
      cases hp
    · rw [hf, he]
      refine calls (fun _ hq => absurd hq List.not_mem_nil) fun q hpq => ?_
      cases hpq

/-! ## Every run without a further update ends -/

omit s' in
theorem AllAfter.not_ahead {qs : List CallerPhase} (h : AllAfter qs) : qs.any CallerPhase.ahead = false := by
  rw [List.any_eq_false]
  intro q hq
  rw [h q hq]
  exact Bool.false_ne_true

omit s' in
/-- A step of one core thread that brings it nearer to its end. -/
theorem steps_core {i : Fin n} {q : CorePhase}
    (h : q.steps s.ahead s.threadsStop < (s.core i).steps s.ahead s.threadsStop) :
    steps { s with core := Function.update s.core i q } < s.steps := by
  refine Nat.add_lt_add_right (total_lt (List.mem_finRange i) ?_ fun j _ => ?_) _
  · show ((Function.update s.core i q) i).steps s.ahead s.threadsStop < _
    rw [Function.update_self]
    exact h
  · show ((Function.update s.core i q) j).steps s.ahead s.threadsStop ≤ _
    by_cases hj : j = i
    · subst hj
      rw [Function.update_self]
      exact h.le
    · rw [Function.update_of_ne hj]

/-- An arrival is a step. -/
theorem steps_arrive {l : ShutdownLabel n} (hn : s.arrive l = some s') : s'.steps < s.steps := by
  cases l with
  | arriveMain =>
    simp only [Shutdown.arrive] at hn
    split at hn
    · rename_i hf
      obtain ⟨q, hq, rfl⟩ := Option.map_eq_some_iff.mp hn
      refine Nat.add_lt_add_left ?_ _
      simp only [callers, total_cons]
      rcases CallerPhase.arrive_cases hq with ⟨hp, rfl⟩ | ⟨hp, rfl⟩ <;> rw [hp] <;>
        exact Nat.add_lt_add_right (by decide) _
    · rename_i p qs hf
      obtain ⟨q, hq, rfl⟩ := Option.map_eq_some_iff.mp hn
      have hahead : Shutdown.ahead { s with frames := q :: qs } = s.ahead := by
        unfold Shutdown.ahead
        rw [hf]
        rcases CallerPhase.arrive_cases hq with ⟨rfl, rfl⟩ | ⟨rfl, rfl⟩ <;> rfl
      unfold steps
      rw [hahead]
      refine Nat.add_lt_add_left ?_ _
      simp only [callers, total_cons, hf]
      rcases CallerPhase.arrive_cases hq with ⟨rfl, rfl⟩ | ⟨rfl, rfl⟩ <;>
        exact Nat.add_lt_add_left (Nat.add_lt_add_right (by decide) _) _
  | arriveCore i =>
    obtain ⟨q, hq, rfl⟩ := Option.map_eq_some_iff.mp hn
    refine steps_core ?_
    rcases CorePhase.arrive_cases hq with ⟨hp, rfl⟩ | ⟨hp, rfl⟩ | ⟨hp, rfl⟩ <;> rw [hp] <;>
      simp only [CorePhase.steps] <;> omega
  | update | ret | finalize | check i | decrement i | loop i => cases hn

omit s' in
/-- The opening of the barrier takes nobody back. -/
theorem steps_barrier (h : s.Stage) : s.barrier.steps ≤ s.steps := by
  unfold Shutdown.barrier
  split_ifs with hfull
  · obtain ⟨hw, hc⟩ := (full_iff (h.countP_le (f := CallerPhase.waiting) rfl rfl)).mp hfull
    have hcall : ∀ p : CallerPhase, p.release.steps ≤ p.steps := fun p => by cases p <;> decide
    have hcore : ∀ i, (s.core i).release.steps s.release.ahead s.threadsStop ≤
        (s.core i).steps s.ahead s.threadsStop := by
      intro i
      cases h with
      | first hf hp _ hr _ hcore =>
        have ha : s.ahead = true := by
          unfold Shutdown.ahead
          rw [hf]
          rcases hp with rfl | rfl <;> rfl
        rw [CorePhase.eq_inFirst (hw i) (hcore i), ha, hr.stop]
        exact Nat.le_succ 10
      | second _ _ _ _ _ hcore =>
        rw [CorePhase.eq_inSecond (hw i) (hcore i)]
        exact Nat.le_succ 7
      | work hq hr =>
        obtain ⟨c, hc, hcw⟩ := hc
        rcases List.mem_cons.mp hc with rfl | hc
        · rw [hr.ending] at hcw
          cases hcw
        · exact absurd ⟨c, hc, hcw⟩ hq.not_waiting
      | last _ _ hs hl =>
        rw [(hl i).eq_inFirst (hw i), hs]
        exact Nat.le_trans (Nat.le_succ 3) (Nat.le_add_right 4 _)
      | leave _ _ _ hl =>
        rw [CorePhase.eq_inExit (hw i) (hl i)]
        exact Nat.zero_le 1
      | done _ _ hex =>
        rw [hex i]
        exact Nat.le_refl 0
    refine Nat.add_le_add (total_le fun i _ => hcore i) ?_
    show (s.ending.release).steps + total CallerPhase.steps (s.frames.map CallerPhase.release) ≤
      s.ending.steps + total CallerPhase.steps s.frames
    rw [total_map]
    exact Nat.add_le_add (hcall _) (total_le fun p _ => hcall p)
  · exact Nat.le_refl _

/-- Every step other than an update brings the end nearer. -/
theorem Inv.steps_lt (h : s.Inv) {l : ShutdownLabel n} (hl : l ≠ .update) (hn : s.next l = some s') :
    s'.steps < s.steps := by
  cases l with
  | update => exact absurd rfl hl
  | arriveMain =>
    obtain ⟨s₁, ha, rfl⟩ := Option.map_eq_some_iff.mp hn
    exact (steps_barrier (h.arrive ha)).trans_lt (steps_arrive ha)
  | arriveCore i =>
    obtain ⟨s₁, ha, rfl⟩ := Option.map_eq_some_iff.mp hn
    exact (steps_barrier (h.arrive ha)).trans_lt (steps_arrive ha)
  | ret =>
    simp only [next] at hn
    split at hn
    · rename_i qs hf
      cases hn
      have hahead : s.ahead = Shutdown.ahead { s with frames := qs } := by
        unfold Shutdown.ahead
        rw [hf]
        rfl
      unfold steps
      rw [hahead]
      refine Nat.add_lt_add_left ?_ _
      simp only [callers, total_cons, hf]
      exact Nat.add_lt_add_left (Nat.lt_add_of_pos_left (by decide)) _
    · cases hn
  | finalize =>
    simp only [next] at hn
    split_ifs at hn with hc
    cases hn
    refine Nat.add_lt_add_of_le_of_lt (total_le fun i _ => ?_) ?_
    · show (s.core i).steps s.ahead true ≤ (s.core i).steps s.ahead s.threadsStop
      exact CorePhase.steps_stop _ _ _
    · simp only [callers, total_cons, hc.2]
      exact Nat.add_lt_add_right (by decide) _
  | check i =>
    simp only [next] at hn
    by_cases hi : s.core i = .check
    · rw [if_pos hi, Option.some.injEq] at hn
      subst hn
      refine steps_core ?_
      rw [hi]
      exact CorePhase.steps_check _ _
    · rw [if_neg hi] at hn
      cases hn
  | decrement i =>
    simp only [next] at hn
    split_ifs at hn with hi
    cases hn
    have hahead : s.ahead = false := by
      unfold Shutdown.ahead
      cases h.stage with
      | first _ _ _ _ _ hcore | second _ _ _ _ _ hcore => exact phase_absurd (hcore i) hi rfl
      | work hq => exact AllAfter.not_ahead hq
      | last hf | leave hf | done hf =>
        rw [hf]
        rfl
    refine (steps_core (s := { s with uptodate := s.uptodate - 1, pending := s.pending.erase i }) ?_)
    show CorePhase.restarting.steps s.ahead s.threadsStop < (s.core i).steps s.ahead s.threadsStop
    rw [hi, hahead]
    exact Nat.lt_succ_self 6
  | loop i =>
    simp only [next] at hn
    split_ifs at hn with hi
    cases hn
    refine steps_core ?_
    rw [hi]
    simp only [CorePhase.steps]
    omega

omit s' in
/-- A core thread that neither waits nor is gone goes on. -/
theorem core_goes_on {i : Fin n} (hw : (s.core i).waiting = false) (he : s.core i ≠ .exited) :
    ∃ l, l ≠ ShutdownLabel.update ∧ (s.next l).isSome = true := by
  cases hc : s.core i with
  | toFirst | toSecond | toExit => exact ⟨.arriveCore i, by simp, by simp [next, Shutdown.arrive, hc, CorePhase.arrive]⟩
  | check => exact ⟨.check i, by simp, by simp [next, hc]⟩
  | working => exact ⟨.decrement i, by simp, by simp [next, hc]⟩
  | restarting => exact ⟨.loop i, by simp, by simp [next, hc]⟩
  | inFirst | inSecond | inExit =>
    rw [hc] at hw
    cases hw
  | exited => exact absurd hc he

omit s' in
/-- While a call waits at the barrier some core thread is on its way there. -/
theorem Inv.core_missing (h : s.Inv) {c : CallerPhase} (hc : c ∈ s.callers) (hw : c.waiting = true)
    (he : ∀ i, s.core i ≠ .exited) : ∃ l, l ≠ ShutdownLabel.update ∧ (s.next l).isSome = true := by
  have hmiss : ¬ ∀ i, (s.core i).waiting = true := fun hall => h.closed ⟨hall, c, hc, hw⟩
  obtain ⟨i, hi⟩ := not_forall.mp hmiss
  exact core_goes_on (by rwa [Bool.not_eq_true] at hi) (he i)

omit s' in
/-- Some step other than an update is possible until everything is done. -/
theorem Inv.progress (h : s.Inv) : Done s ∨ ∃ l, l ≠ ShutdownLabel.update ∧ (s.next l).isSome = true := by
  have main : ∀ {p q : CallerPhase} {qs : List CallerPhase}, s.frames = p :: qs → p.arrive = some q →
      ∃ l, l ≠ ShutdownLabel.update ∧ (s.next l).isSome = true := fun hf hp =>
    ⟨.arriveMain, by simp, by simp [next, Shutdown.arrive, hf, hp]⟩
  have last : ∀ {q : CallerPhase}, s.frames = [] → s.ending.arrive = some q →
      ∃ l, l ≠ ShutdownLabel.update ∧ (s.next l).isSome = true := fun hf hp =>
    ⟨.arriveMain, by simp, by simp [next, Shutdown.arrive, hf, hp]⟩
  cases h.stage with
  | first hf hp _ _ _ hcore =>
    refine Or.inr ?_
    rcases hp with rfl | rfl
    · exact main hf rfl
    · refine h.core_missing (c := .inFirst) (by simp [callers, hf]) rfl fun i hi => ?_
      exact phase_absurd (hcore i) hi rfl
  | second hf hp _ _ _ hcore =>
    refine Or.inr ?_
    rcases hp with rfl | rfl
    · exact main hf rfl
    · refine h.core_missing (c := .inSecond) (by simp [callers, hf]) rfl fun i hi => ?_
      exact phase_absurd (hcore i) hi rfl
  | work hq hr =>
    refine Or.inr ?_
    cases hf : s.frames with
    | nil => exact ⟨.finalize, by simp, by simp [next, hf, hr.ending]⟩
    | cons p qs =>
      obtain rfl : p = .after := hq p (by rw [hf]; exact List.mem_cons_self)
      exact ⟨.ret, by simp, by simp [next, hf]⟩
  | last hf he _ hl =>
    refine Or.inr ?_
    rcases he with he | he
    · exact last hf (by rw [he]; rfl)
    · refine h.core_missing (c := .inFirst) (by simp [callers, he]) rfl fun i hi => ?_
      by_cases hmem : i ∈ s.pending
      · exact absurd (hi.symm.trans ((hl i).1 hmem)) (by decide)
      · exact phase_absurd ((hl i).2 hmem) hi rfl
  | leave hf he _ hl =>
    refine Or.inr ?_
    rcases he with he | he
    · exact last hf (by rw [he]; rfl)
    · refine h.core_missing (c := .inSecond) (by simp [callers, he]) rfl fun i hi => ?_
      exact phase_absurd (hl i) hi rfl
  | done hf he hex => exact Or.inl ⟨hf, he, hex⟩

/-- A run without updates. -/
theorem Inv.run (hn0 : 0 < n) (h : s.Inv) {ls : List (ShutdownLabel n)} (hl : .update ∉ ls)
    (he : shutdownSys.exec s ls = some s') : s'.Inv ∧ ls.length + s'.steps ≤ s.steps := by
  induction ls generalizing s with
  | nil =>
    cases he
    exact ⟨h, (Nat.zero_add _).le⟩
  | cons l ls ih =>
    obtain ⟨s₁, h1, h2⟩ := Lts.exec_cons_eq_some.mp he
    obtain ⟨hi, hle⟩ := ih (h.step hn0 h1) (fun hmem => hl (List.mem_cons_of_mem l hmem)) h2
    have hlt := h.steps_lt (fun he => hl (he ▸ List.mem_cons_self)) h1
    refine ⟨hi, ?_⟩
    rw [List.length_cons]
    omega

end Steps

end Shutdown

/-- **The round and shutdown barriers stay aligned.** In every reachable state at most one call is in a round or in the
shutdown; whoever arrives at the barrier finds all others at the same of its two points; a run without further updates
has boundedly many steps, and can go on until the library is finalized and all core threads are gone; and they are gone
when `hmon_lib_finalize` has passed its second wait. -/
theorem barriers_aligned (hn : 0 < n) {s : Shutdown n} (h : shutdownSys.Reach InitialShutdown Lts.always s) :
    OneInRound s ∧ (∀ l s₁, s.arrive l = some s₁ → Aligned s₁) ∧
      (∀ ls s', .update ∉ ls → shutdownSys.exec s ls = some s' → ls.length ≤ s.steps ∧
        (Done s' ∨ ∃ l, l ≠ .update ∧ (s'.next l).isSome = true)) ∧
      (s.ending = .after → ∀ i, s.core i = .exited) := by
  have hi := Shutdown.inv_reach hn h
  refine ⟨hi.stage.countP_le rfl rfl, fun l s₁ ha => (hi.arrive ha).aligned, fun ls s' hl he => ?_, fun hend => ?_⟩
  · obtain ⟨hi', hle⟩ := hi.run hn hl he
    exact ⟨(Nat.le_add_right _ _).trans hle, hi'.progress⟩
  · cases hi.stage with
    | first _ _ _ hr | second _ _ _ hr | work _ hr =>
      rw [hr.ending] at hend
      cases hend
    | last _ he | leave _ he =>
      rw [hend] at he
      rcases he with he | he <;> cases he
    | done _ _ hex => exact hex

/-! ## A shutdown after a nested update -/

namespace Nested

/-- The only core thread. -/
def core : Fin 1 := ⟨0, Nat.one_pos⟩

/-- One round of the core thread, from its first barrier to its restart. -/
def round : List (ShutdownLabel 1) :=
  [.arriveMain, .arriveCore core, .check core, .arriveMain, .arriveCore core, .decrement core]

/-- The handler calls `hmon_update` before the first update returns; then the library is finalized. -/
def calls : List (ShutdownLabel 1) :=
  .update :: round ++ [.update, .loop core] ++ round ++ [.ret, .ret, .finalize, .arriveMain, .loop core,
    .arriveCore core, .check core, .arriveMain, .arriveCore core]

def callsEnd : Shutdown 1 := (shutdownSys.exec Shutdown.init calls).get (by decide +kernel)

theorem calls_exec : shutdownSys.exec Shutdown.init calls = some callsEnd := (Option.some_get _).symm

end Nested

open Nested in
theorem barriers_aligned_nested : callsEnd.ending = .after ∧ callsEnd.core core = .exited := by
  have h := barriers_aligned (by decide) (.of_exec (.init rfl) calls_exec)
  have hend : callsEnd.ending = .after := by decide +kernel
  exact ⟨hend, h.2.2.2 hend core⟩

end Hmon
