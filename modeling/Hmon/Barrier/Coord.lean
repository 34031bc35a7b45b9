import Hmon.Lib.Lts
import Mathlib.Data.Finset.Card
import Mathlib.Data.Fintype.Basic
import Mathlib.Data.Fintype.Card

/-!
# The barrier and the `uptodate` counter (`synchronize.c`)

`n` core threads and any number of callers of `hmon_update` share one barrier of `n + 1` threads, the flag
`threads_stop` and the counter `uptodate`.

* `CorePhase`, `CallerPhase` : where a thread is in `hmonitor_thread`, `hmon_update` and `hmon_lib_finalize`;
* `Coord`, `coordSys` : the shared state and its atomic steps; `pending` records the threads that have not yet
  decremented `uptodate` in the round in progress;
* `Stage` : where a round is; `CoordInv` : `uptodate` counts the pending threads;
* `uptodate_counts` : **as long as `hmon_is_uptodate` is only called while `uptodate` is 0, `uptodate` is the number
  of unfinished threads**.
-/

namespace Hmon
open Lib

/-- Where `hmonitor_thread` is: before and in each `pthread_barrier_wait`, before the test of `threads_stop`, in the
stop, read and reduce passes, and in the start pass after the decrement. -/
inductive CorePhase
  | toFirst
  | inFirst
  | check
  | toSecond
  | inSecond
  | working
  | restarting
  | toExit
  | inExit
  | exited
  deriving DecidableEq

/-- Where a caller of `hmon_update` or `hmon_lib_finalize` is; `after` the second wait. -/
inductive CallerPhase
  | out
  | toFirst
  | inFirst
  | toSecond
  | inSecond
  | after
  deriving DecidableEq

namespace CorePhase

/-- The thread is in `pthread_barrier_wait`. -/
def waiting : CorePhase → Bool
  | inFirst | inSecond | inExit => true
  | _ => false

/-- The thread calls `pthread_barrier_wait`. -/
def arrive : CorePhase → Option CorePhase
  | toFirst => some inFirst
  | toSecond => some inSecond
  | toExit => some inExit
  | _ => none

/-- The barrier lets the thread go. -/
def release : CorePhase → CorePhase
  | inFirst => check
  | inSecond => working
  | inExit => exited
  | p => p

/-- Between two rounds: not yet back, or back at the first barrier. -/
def between : CorePhase → Bool
  | restarting | toFirst | inFirst => true
  | _ => false

/-- Between the two barriers. -/
def middle : CorePhase → Bool
  | check | toSecond | inSecond => true
  | _ => false

end CorePhase

namespace CallerPhase

def waiting : CallerPhase → Bool
  | inFirst | inSecond => true
  | _ => false

def arrive : CallerPhase → Option CallerPhase
  | toFirst => some inFirst
  | toSecond => some inSecond
  | _ => none

def release : CallerPhase → CallerPhase
  | inFirst => toSecond
  | inSecond => after
  | p => p

/-- Not between the compare-and-swap and the second barrier. -/
def free : CallerPhase → Bool
  | out | after => true
  | _ => false

end CallerPhase

/-- The shared state. `C` are the callers. -/
structure Coord (n : Nat) (C : Type) where
  core : Fin n → CorePhase
  caller : C → CallerPhase
  uptodate : Int
  threadsStop : Bool
  pending : Finset (Fin n)

inductive CoordLabel (n : Nat) (C : Type)
  /-- `__sync_bool_compare_and_swap(&uptodate, 0, ncores)` of `hmon_update`. -/
  | update (c : C)
  | isUptodate
  | finalize (c : C)
  | arriveCaller (c : C)
  /-- The caller returns. -/
  | ret (c : C)
  | arriveCore (i : Fin n)
  | check (i : Fin n)
  /-- `__sync_fetch_and_sub(&uptodate, 1)`. -/
  | decrement (i : Fin n)
  /-- `goto hmon_thread_loop`. -/
  | loop (i : Fin n)

variable {n : Nat} {C : Type}

namespace Coord
variable [Fintype C]

/-- The number of threads in `pthread_barrier_wait`. -/
def waitingCount (s : Coord n C) : Nat :=
  (Finset.univ.filter fun i => (s.core i).waiting).card + (Finset.univ.filter fun c => (s.caller c).waiting).card

def release (s : Coord n C) : Coord n C :=
  { s with core := fun i => (s.core i).release, caller := fun c => (s.caller c).release }

/-- A barrier for `n + 1` threads opens when the last of them arrives. -/
def barrier (s : Coord n C) : Coord n C := if s.waitingCount = n + 1 then s.release else s

variable [DecidableEq C]

def next (s : Coord n C) : CoordLabel n C → Option (Coord n C)
  | .update c =>
    if s.caller c = .out then
      if s.uptodate = 0 then
        some { s with uptodate := n, pending := Finset.univ, caller := Function.update s.caller c .toFirst }
      else some s
    else none
  | .isUptodate => some { s with uptodate := 0 }
  | .finalize c =>
    if s.caller c = .out then
      some { s with threadsStop := true, caller := Function.update s.caller c .toFirst }
    else none
  | .arriveCaller c =>
    (s.caller c).arrive.map fun p => barrier { s with caller := Function.update s.caller c p }
  | .ret c => if s.caller c = .after then some { s with caller := Function.update s.caller c .out } else none
  | .arriveCore i => (s.core i).arrive.map fun p => barrier { s with core := Function.update s.core i p }
  | .check i =>
    if s.core i = .check then
      some { s with core := Function.update s.core i (if s.threadsStop then .toExit else .toSecond) }
    else none
  | .decrement i =>
    if s.core i = .working then
      some { s with
        uptodate := s.uptodate - 1, pending := s.pending.erase i, core := Function.update s.core i .restarting }
    else none
  | .loop i =>
    if s.core i = .restarting then some { s with core := Function.update s.core i .toFirst } else none

end Coord

def coordSys [Fintype C] [DecidableEq C] : Lts (Coord n C) (CoordLabel n C) := ⟨Coord.next⟩

/-- After `hmon_lib_init`. -/
def Coord.init : Coord n C := ⟨fun _ => .toFirst, fun _ => .out, 0, false, ∅⟩

def Initial (s : Coord n C) : Prop := s = Coord.init

/-- `hmon_is_uptodate` is called while `uptodate` is 0 only, and the library is not finalized. -/
def queriesIdle (s : Coord n C) : CoordLabel n C → Bool
  | .isUptodate => decide (s.uptodate = 0)
  | .finalize _ => false
  | _ => true

abbrev QueriesIdle (s : Coord n C) (l : CoordLabel n C) : Prop := queriesIdle s l = true

/-! ## Where a round is -/

/-- Before the first barrier, between the barriers, or after the second one (and between rounds). -/
inductive Stage (s : Coord n C) : Prop
  | first (c : C) : s.pending = Finset.univ → s.caller c = .toFirst ∨ s.caller c = .inFirst →
      (∀ d, d ≠ c → (s.caller d).free) → (∀ i, (s.core i).between) → Stage s
  | second (c : C) : s.pending = Finset.univ → s.caller c = .toSecond ∨ s.caller c = .inSecond →
      (∀ d, d ≠ c → (s.caller d).free) → (∀ i, (s.core i).middle) → Stage s
  | work : (∀ c, (s.caller c).free) → (∀ i, i ∈ s.pending → s.core i = .working) →
      (∀ i, i ∉ s.pending → (s.core i).between) → Stage s

structure CoordInv (s : Coord n C) : Prop where
  count : s.uptodate = s.pending.card
  running : s.threadsStop = false
  stage : Stage s

theorem coordInv_init : CoordInv (Coord.init : Coord n C) :=
  ⟨rfl, rfl, .work (fun _ => rfl) (fun _ h => absurd h (Finset.notMem_empty _)) fun _ _ => rfl⟩

/-! ## The barrier opens for all or for nobody -/

theorem CallerPhase.not_waiting_of_free {p : CallerPhase} (h : p.free = true) : p.waiting = false := by
  cases p <;> first | rfl | cases h

/-- A caller that calls `pthread_barrier_wait` is in a round. -/
theorem CallerPhase.not_free_of_arrive {p q : CallerPhase} (h : p.arrive = some q) : p.free = false := by
  cases p <;> first | rfl | cases h

theorem CallerPhase.release_free {p : CallerPhase} (h : p.free = true) : p.release.free = true := by
  cases p <;> first | rfl | cases h

theorem CorePhase.release_between {p : CorePhase} (hw : p.waiting = true) (hb : p.between = true) :
    p.release.middle = true := by
  cases p <;> simp_all [waiting, between, release, middle]

theorem CorePhase.release_middle {p : CorePhase} (hw : p.waiting = true) (hm : p.middle = true) :
    p.release = .working := by
  cases p <;> simp_all [waiting, middle, release]

section Barrier
variable [Fintype C] {s : Coord n C} {c : C}

/-- When only `c` of the callers can wait, the barrier is full only if every core thread and `c` wait. -/
theorem Coord.all_waiting (hc : ∀ d, d ≠ c → (s.caller d).waiting = false) (h : s.waitingCount = n + 1) :
    (∀ i, (s.core i).waiting = true) ∧ (s.caller c).waiting = true := by
  unfold waitingCount at h
  have hcore : (Finset.univ.filter fun i => (s.core i).waiting).card ≤ n := by
    simpa using Finset.card_le_univ (Finset.univ.filter fun i => (s.core i).waiting = true)
  have hsub : (Finset.univ.filter fun d => (s.caller d).waiting = true) ⊆ {c} := by
    intro d hd
    rw [Finset.mem_filter] at hd
    by_contra hne
    rw [Finset.mem_singleton] at hne
    rw [hc d hne] at hd
    cases hd.2
  have hcaller := Finset.card_le_card hsub
  rw [Finset.card_singleton] at hcaller
  constructor
  · have hfull : (Finset.univ.filter fun i => (s.core i).waiting = true) = Finset.univ := by
      refine Finset.eq_univ_of_card _ ?_
      rw [Fintype.card_fin]
      omega
    intro i
    have hi := Finset.mem_univ i
    rw [← hfull] at hi
    exact (Finset.mem_filter.mp hi).2
  · have hpos : 0 < (Finset.univ.filter fun d => (s.caller d).waiting = true).card := by omega
    obtain ⟨d, hd⟩ := Finset.card_pos.mp hpos
    rw [← Finset.mem_singleton.mp (hsub hd)]
    exact (Finset.mem_filter.mp hd).2

/-- Without a waiting caller the barrier stays closed. -/
theorem Coord.barrier_closed (hc : ∀ c, (s.caller c).waiting = false) : s.barrier = s := by
  unfold barrier
  rw [if_neg]
  unfold waitingCount
  have hcore : (Finset.univ.filter fun i => (s.core i).waiting).card ≤ n := by
    simpa using Finset.card_le_univ (Finset.univ.filter fun i => (s.core i).waiting = true)
  have hcaller : (Finset.univ.filter fun c => (s.caller c).waiting = true).card = 0 := by
    rw [Finset.card_eq_zero, Finset.filter_eq_empty_iff]
    intro c _
    rw [hc c]
    decide
  omega

theorem Coord.barrier_eq (s : Coord n C) : s.barrier = s ∨ s.barrier = s.release ∧ s.waitingCount = n + 1 := by
  unfold barrier
  split_ifs with h
  · exact Or.inr ⟨rfl, h⟩
  · exact Or.inl rfl

/-- The first barrier opens when all core threads and the caller wait at it. -/
theorem Stage.first_barrier (hp : s.pending = Finset.univ) (hc : s.caller c = .toFirst ∨ s.caller c = .inFirst)
    (hfree : ∀ d, d ≠ c → (s.caller d).free) (hcore : ∀ i, (s.core i).between) : Stage s.barrier := by
  rcases s.barrier_eq with hb | ⟨hb, hfull⟩
  · rw [hb]
    exact .first c hp hc hfree hcore
  · obtain ⟨hwait, hcw⟩ := Coord.all_waiting (fun d hd => CallerPhase.not_waiting_of_free (hfree d hd)) hfull
    rw [hb]
    refine .second c hp (Or.inl ?_) (fun d hd => CallerPhase.release_free (hfree d hd)) fun i =>
      CorePhase.release_between (hwait i) (hcore i)
    show (s.caller c).release = .toSecond
    rcases hc with hc | hc
    · rw [hc] at hcw; cases hcw
    · rw [hc]; rfl

/-- The second barrier opens when all core threads and the caller wait at it. -/
theorem Stage.second_barrier (hp : s.pending = Finset.univ) (hc : s.caller c = .toSecond ∨ s.caller c = .inSecond)
    (hfree : ∀ d, d ≠ c → (s.caller d).free) (hcore : ∀ i, (s.core i).middle) : Stage s.barrier := by
  rcases s.barrier_eq with hb | ⟨hb, hfull⟩
  · rw [hb]
    exact .second c hp hc hfree hcore
  · obtain ⟨hwait, hcw⟩ := Coord.all_waiting (fun d hd => CallerPhase.not_waiting_of_free (hfree d hd)) hfull
    rw [hb]
    refine .work (fun d => ?_) (fun i _ => CorePhase.release_middle (hwait i) (hcore i))
      fun i hi => absurd (hp ▸ Finset.mem_univ i) hi
    by_cases hd : d = c
    · subst hd
      show (s.caller d).release.free
      rcases hc with hc | hc
      · rw [hc] at hcw; cases hcw
      · rw [hc]; rfl
    · exact CallerPhase.release_free (hfree d hd)

end Barrier

/-! ## The steps -/

/-- A thread cannot be in a phase that its side of the barriers excludes. -/
theorem phase_absurd {α : Type} {f : α → Bool} {p q : α} {P : Prop} (h : f p = true) (hp : p = q)
    (hq : f q = false) : P := by
  rw [hp, hq] at h
  cases h

section Steps
variable [Fintype C] [DecidableEq C] {s s' : Coord n C}

omit [DecidableEq C] in
theorem barrier_fields (s : Coord n C) : s.barrier.uptodate = s.uptodate ∧ s.barrier.pending = s.pending ∧
    s.barrier.threadsStop = s.threadsStop := by
  rcases s.barrier_eq with hb | ⟨hb, -⟩ <;> rw [hb] <;> exact ⟨rfl, rfl, rfl⟩

omit [DecidableEq C] in
theorem CoordInv.barrier (h1 : s.uptodate = s.pending.card) (h2 : s.threadsStop = false) (h3 : Stage s.barrier) :
    CoordInv s.barrier := by
  obtain ⟨hu, hp, ht⟩ := barrier_fields s
  exact ⟨by rw [hu, hp, h1], ht.trans h2, h3⟩

omit [Fintype C] [DecidableEq C] in
/-- When no thread is counted, none is pending, so not all are. -/
theorem none_pending {pending : Finset (Fin n)} (hn : 0 < n) (h : (pending.card : Int) = 0) :
    pending = ∅ ∧ pending ≠ Finset.univ := by
  have hempty : pending = ∅ := Finset.card_eq_zero.mp (by omega)
  refine ⟨hempty, fun he => ?_⟩
  have hmem : (⟨0, hn⟩ : Fin n) ∈ pending := he ▸ Finset.mem_univ _
  rw [hempty] at hmem
  exact Finset.notMem_empty _ hmem

/-- The compare-and-swap succeeds only between rounds. -/
theorem CoordInv.update (hn : 0 < n) (h : CoordInv s) {c : C} (hn' : s.next (.update c) = some s') : CoordInv s' := by
  simp only [Coord.next] at hn'
  split_ifs at hn' with hout h0
  · cases hn'
    obtain ⟨hempty, hne⟩ := none_pending hn (h.count.symm.trans h0)
    refine ⟨by rw [Finset.card_univ, Fintype.card_fin], h.running, ?_⟩
    cases h.stage with
    | first _ hp | second _ hp => exact absurd hp hne
    | work hfree _ hcore =>
      refine .first c rfl (Or.inl (Function.update_self ..)) (fun d hd => ?_) fun i => hcore i (by rw [hempty]; simp)
      show (Function.update s.caller c .toFirst d).free
      rw [Function.update_of_ne hd]
      exact hfree d
  · cases hn'
    exact h

theorem CoordInv.arriveCaller (h : CoordInv s) {c : C} (hn : s.next (.arriveCaller c) = some s') : CoordInv s' := by
  simp only [Coord.next] at hn
  obtain ⟨p, hp, rfl⟩ := Option.map_eq_some_iff.mp hn
  refine CoordInv.barrier h.count h.running ?_
  have hbusy : ¬ (s.caller c).free = true := by
    rw [CallerPhase.not_free_of_arrive hp]
    exact Bool.false_ne_true
  have hother : ∀ {d : C}, (∀ e, e ≠ d → (s.caller e).free) → c = d := by
    intro d hd
    by_contra hne
    exact hbusy (hd c hne)
  cases h.stage with
  | first d hpend hd hfree hcore =>
    obtain rfl := hother hfree
    have hpc : p = .inFirst := by
      rcases hd with hd | hd
      · rw [hd] at hp; exact (Option.some.inj hp).symm
      · rw [hd] at hp; cases hp
    refine Stage.first_barrier (c := c) hpend (Or.inr ?_) (fun e he => ?_) hcore
    · exact (Function.update_self ..).trans hpc
    · show (Function.update s.caller c p e).free
      rw [Function.update_of_ne he]
      exact hfree e he
  | second d hpend hd hfree hcore =>
    obtain rfl := hother hfree
    have hpc : p = .inSecond := by
      rcases hd with hd | hd
      · rw [hd] at hp; exact (Option.some.inj hp).symm
      · rw [hd] at hp; cases hp
    refine Stage.second_barrier (c := c) hpend (Or.inr ?_) (fun e he => ?_) hcore
    · exact (Function.update_self ..).trans hpc
    · show (Function.update s.caller c p e).free
      rw [Function.update_of_ne he]
      exact hfree e he
  | work hfree => exact absurd (hfree c) hbusy

theorem CoordInv.arriveCore (h : CoordInv s) {i : Fin n} (hn : s.next (.arriveCore i) = some s') : CoordInv s' := by
  simp only [Coord.next] at hn
  obtain ⟨p, hp, rfl⟩ := Option.map_eq_some_iff.mp hn
  refine CoordInv.barrier h.count h.running ?_
  have hphase : s.core i = .toFirst ∧ p = .inFirst ∨ s.core i = .toSecond ∧ p = .inSecond ∨ s.core i = .toExit := by
    cases hc : s.core i <;> rw [hc] at hp <;> simp_all [CorePhase.arrive]
  cases h.stage with
  | first d hpend hd hfree hcore =>
    have hpb : p.between = true := by
      rcases hphase with ⟨-, rfl⟩ | ⟨hi, -⟩ | hi
      · rfl
      · exact phase_absurd (hcore i) hi rfl
      · exact phase_absurd (hcore i) hi rfl
    exact Stage.first_barrier (c := d) hpend hd hfree
      ((Function.forall_update_iff s.core fun _ q => q.between = true).mpr ⟨hpb, fun j _ => hcore j⟩)
  | second d hpend hd hfree hcore =>
    have hpm : p.middle = true := by
      rcases hphase with ⟨hi, -⟩ | ⟨-, rfl⟩ | hi
      · exact phase_absurd (hcore i) hi rfl
      · rfl
      · exact phase_absurd (hcore i) hi rfl
    exact Stage.second_barrier (c := d) hpend hd hfree
      ((Function.forall_update_iff s.core fun _ q => q.middle = true).mpr ⟨hpm, fun j _ => hcore j⟩)
  | work hfree hwork hcore =>
    have hclosed := Coord.barrier_closed (s := { s with core := Function.update s.core i p })
      fun c => CallerPhase.not_waiting_of_free (hfree c)
    rw [hclosed]
    have hi : i ∉ s.pending := by
      intro hi
      rw [hwork i hi] at hp
      cases hp
    have hpb : p.between = true := by
      rcases hphase with ⟨-, rfl⟩ | ⟨hc, -⟩ | hc
      · rfl
      · exact phase_absurd (hcore i hi) hc rfl
      · exact phase_absurd (hcore i hi) hc rfl
    exact .work hfree
      ((Function.forall_update_iff s.core fun j q => j ∈ s.pending → q = .working).mpr
        ⟨fun h0 => absurd h0 hi, fun j _ => hwork j⟩)
      ((Function.forall_update_iff s.core fun j q => j ∉ s.pending → q.between = true).mpr
        ⟨fun _ => hpb, fun j _ => hcore j⟩)

theorem CoordInv.ret (h : CoordInv s) {c : C} (hn : s.next (.ret c) = some s') : CoordInv s' := by
  simp only [Coord.next] at hn
  split_ifs at hn with hafter
  cases hn
  refine ⟨h.count, h.running, ?_⟩
  have hfree : ∀ d, (s.caller d).free = true → (Function.update s.caller c .out d).free = true := fun d hd =>
    (Function.forall_update_iff s.caller fun e q => (s.caller e).free = true → q.free = true).mpr
      ⟨fun _ => rfl, fun _ _ => id⟩ d hd
  have hsame : ∀ {d : C} {p q : CallerPhase}, p ≠ .after → q ≠ .after → s.caller d = p ∨ s.caller d = q →
      Function.update s.caller c .out d = p ∨ Function.update s.caller c .out d = q := by
    intro d p q hp hq hd
    have hne : d ≠ c := by
      rintro rfl
      rw [hafter] at hd
      exact hd.elim (fun e => hp e.symm) fun e => hq e.symm
    rwa [Function.update_of_ne hne]
  cases h.stage with
  | first d hpend hd hother hcore =>
    exact .first d hpend (hsame nofun nofun hd) (fun e he => hfree e (hother e he)) hcore
  | second d hpend hd hother hcore =>
    exact .second d hpend (hsame nofun nofun hd) (fun e he => hfree e (hother e he)) hcore
  | work hall hwork hcore => exact .work (fun d => hfree d (hall d)) hwork hcore

theorem CoordInv.check (h : CoordInv s) {i : Fin n} (hn : s.next (.check i) = some s') : CoordInv s' := by
  simp only [Coord.next] at hn
  split_ifs at hn with hi hstop
  · rw [h.running] at hstop
    cases hstop
  · cases hn
    refine ⟨h.count, h.running, ?_⟩
    cases h.stage with
    | first _ _ _ _ hcore =>
      exact phase_absurd (hcore i) hi rfl
    | second d hpend hd hother hcore =>
      exact .second d hpend hd hother ((Function.forall_update_iff s.core fun _ q => q.middle = true).mpr
        ⟨rfl, fun j _ => hcore j⟩)
    | work _ hwork hcore =>
      by_cases hmem : i ∈ s.pending
      · exact absurd (hi.symm.trans (hwork i hmem)) (by decide)
      · exact phase_absurd (hcore i hmem) hi rfl

/-- A thread decrements `uptodate` once, after the second barrier. -/
theorem CoordInv.decrement (h : CoordInv s) {i : Fin n} (hn : s.next (.decrement i) = some s') : CoordInv s' := by
  simp only [Coord.next] at hn
  split_ifs at hn with hi
  cases hn
  cases h.stage with
  | first _ _ _ _ hcore =>
    exact phase_absurd (hcore i) hi rfl
  | second _ _ _ _ hcore =>
    exact phase_absurd (hcore i) hi rfl
  | work hall hwork hcore =>
    have hmem : i ∈ s.pending := by
      by_contra hmem
      exact phase_absurd (hcore i hmem) hi rfl
    refine ⟨?_, h.running, .work hall ?_ ?_⟩
    · show s.uptodate - 1 = ((s.pending.erase i).card : Int)
      have hpos := Finset.card_pos.mpr ⟨i, hmem⟩
      rw [h.count, Finset.card_erase_of_mem hmem]
      omega
    · exact (Function.forall_update_iff s.core fun j q => j ∈ s.pending.erase i → q = .working).mpr
        ⟨fun hj => absurd hj (Finset.notMem_erase i _), fun j _ hj => hwork j (Finset.mem_of_mem_erase hj)⟩
    · exact (Function.forall_update_iff s.core fun j q => j ∉ s.pending.erase i → q.between = true).mpr
        ⟨fun _ => rfl, fun j hne hj => hcore j fun hp => hj (Finset.mem_erase.mpr ⟨hne, hp⟩)⟩

theorem CoordInv.loop (h : CoordInv s) {i : Fin n} (hn : s.next (.loop i) = some s') : CoordInv s' := by
  simp only [Coord.next] at hn
  split_ifs at hn with hi
  cases hn
  refine ⟨h.count, h.running, ?_⟩
  cases h.stage with
  | first d hpend hd hother hcore =>
    exact .first d hpend hd hother ((Function.forall_update_iff s.core fun _ q => q.between = true).mpr
      ⟨rfl, fun j _ => hcore j⟩)
  | second _ _ _ _ hcore =>
    exact phase_absurd (hcore i) hi rfl
  | work hall hwork hcore =>
    have hnot : i ∉ s.pending := fun hmem => absurd (hi.symm.trans (hwork i hmem)) (by decide)
    exact .work hall
      ((Function.forall_update_iff s.core fun j q => j ∈ s.pending → q = .working).mpr
        ⟨fun hmem => absurd hmem hnot, fun j _ => hwork j⟩)
      ((Function.forall_update_iff s.core fun j q => j ∉ s.pending → q.between = true).mpr
        ⟨fun _ => rfl, fun j _ => hcore j⟩)

theorem CoordInv.step (hn : 0 < n) (h : CoordInv s) {l : CoordLabel n C} (hok : QueriesIdle s l)
    (hl : s.next l = some s') : CoordInv s' := by
  cases l with
  | update c => exact h.update hn hl
  | isUptodate =>
    cases hl
    have h0 : s.uptodate = 0 := of_decide_eq_true hok
    refine ⟨by rw [← h.count, h0], h.running, ?_⟩
    cases h.stage with
    | first c hp hc hf hi => exact .first c hp hc hf hi
    | second c hp hc hf hi => exact .second c hp hc hf hi
    | work hf hw hb => exact .work hf hw hb
  | finalize c => cases hok
  | arriveCaller c => exact h.arriveCaller hl
  | ret c => exact h.ret hl
  | arriveCore i => exact h.arriveCore hl
  | check i => exact h.check hl
  | decrement i => exact h.decrement hl
  | loop i => exact h.loop hl

theorem coordInv_reach (hn : 0 < n) (h : coordSys.Reach Initial QueriesIdle s) : CoordInv s := by
  refine h.invariant (fun s hs => ?_) fun s l s' hi hok hl => hi.step hn hok hl
  obtain rfl := hs
  exact coordInv_init

omit [Fintype C] [DecidableEq C] in
/-- With every core thread at the first barrier and no caller in a round, nobody is left to decrement. -/
theorem CoordInv.pending_empty (h : CoordInv s) (hcore : ∀ i, s.core i = .toFirst ∨ s.core i = .inFirst)
    (hcaller : ∀ c, (s.caller c).free = true) : s.pending = ∅ := by
  cases h.stage with
  | first c _ hc | second c _ hc =>
    rcases hc with hc | hc
    · exact phase_absurd (hcaller c) hc rfl
    · exact phase_absurd (hcaller c) hc rfl
  | work _ hwork =>
    refine Finset.eq_empty_of_forall_notMem fun i hi => ?_
    rcases hcore i with hc | hc
    · exact absurd (hc.symm.trans (hwork i hi)) (by decide)
    · exact absurd (hc.symm.trans (hwork i hi)) (by decide)

/-- `uptodate` counts the pending threads, an admitted query changes nothing, and with all threads back at the first
barrier the compare-and-swap of the next update succeeds. -/
structure Counts (s : Coord n C) : Prop where
  nonneg : 0 ≤ s.uptodate
  le : s.uptodate ≤ n
  count : s.uptodate = s.pending.card
  query : QueriesIdle s .isUptodate → s.next .isUptodate = some s
  next : (∀ i, s.core i = .toFirst ∨ s.core i = .inFirst) → (∀ c, (s.caller c).free = true) → s.uptodate = 0

/-- **As long as `hmon_is_uptodate` is only called while `uptodate` is 0, `uptodate` counts the threads that have not
finished the round.** -/
theorem uptodate_counts (hn : 0 < n) (h : coordSys.Reach Initial QueriesIdle s) : Counts s := by
  have hi := coordInv_reach hn h
  refine ⟨?_, ?_, hi.count, fun hq => ?_, fun hcore hcaller => ?_⟩
  · rw [hi.count]
    exact Int.natCast_nonneg _
  · have hle := Finset.card_le_univ s.pending
    rw [Fintype.card_fin] at hle
    rw [hi.count]
    omega
  · have h0 : s.uptodate = 0 := of_decide_eq_true hq
    show some { s with uptodate := 0 } = some s
    rw [← h0]
  · rw [hi.count, hi.pending_empty hcore hcaller, Finset.card_empty]
    rfl

end Steps

/-! ## A query that loses the count -/

namespace Query

/-- One caller and one core thread: an update up to the core thread's passes. -/
def toWork : List (CoordLabel 1 Unit) :=
  [.update (), .arriveCaller (), .arriveCore 0, .check 0, .arriveCaller (), .arriveCore 0]

def working : Coord 1 Unit := (coordSys.exec Coord.init toWork).get (by decide +kernel)

theorem working_exec : coordSys.exec Coord.init toWork = some working := (Option.some_get _).symm

/-- The caller asks while the thread reads its monitors; the thread then finishes the round. -/
def lost : List (CoordLabel 1 Unit) := toWork ++ [.isUptodate, .ret (), .decrement 0, .loop 0]

def lostEnd : Coord 1 Unit := (coordSys.exec Coord.init lost).get (by decide +kernel)

theorem lost_exec : coordSys.exec Coord.init lost = some lostEnd := (Option.some_get _).symm

end Query

open Query in
theorem uptodate_counts_working : working.core 0 = .working ∧ Counts working :=
  ⟨by decide +kernel, uptodate_counts (by decide)
    (.of_along (.init rfl) (show coordSys.Along QueriesIdle _ toWork by decide +kernel) working_exec)⟩

open Query in
/-- A query during a round drives `uptodate` to -1: with the thread back at the first barrier, no update starts. -/
theorem query_wedges : ∃ s : Coord 1 Unit, coordSys.Reach Initial Lts.always s ∧ s.uptodate = -1 ∧
    s.core 0 = .toFirst ∧ s.caller () = .out ∧ s.next (.update ()) = some s := by
  refine ⟨lostEnd, .of_exec (.init rfl) lost_exec, by decide +kernel, by decide +kernel, by decide +kernel, ?_⟩
  have hout : lostEnd.caller () = .out := by decide +kernel
  have hne : lostEnd.uptodate ≠ 0 := by decide +kernel
  simp only [Coord.next]
  rw [if_pos hout, if_neg hne]

end Hmon
