import Hmon.Lib.Lts
import Hmon.Monitor.Basic

/-!
# Mutual exclusion of the monitor lock

Any number of threads call `hmonitor_trylock` and `hmonitor_release` on one fresh monitor.

* `lockSys` : the interleavings of the calls; the wait of `hmonitor_trylock(m, 1)` is three steps, the call, the
  lock and the unlock;
* `Holds` : more calls of `hmonitor_trylock` returned 1 than `hmonitor_release` was called since;
* `Clean` : the steps that take neither wrong branch, a lock without `wait` on a mutex that another thread
  locked and a release inside a nested acquisition;
* `lock_exclusion` : **in every clean run at most one thread holds the monitor**;
* `trylock_two_holders` : one call without `wait` makes two holders.
-/

namespace Hmon
open Lib

/-- Where a thread is in `hmonitor_trylock(m, 1)`: not in its wait, in `pthread_mutex_lock`, or before the
`pthread_mutex_unlock` that follows. -/
inductive LockPhase
  | out
  | blocked
  | locked
  deriving DecidableEq

/-- The monitor, the threads, and for each thread its successful locks less its releases. -/
structure LockState (T V M : Type) where
  mon : Hmonitor T V M
  phase : T → LockPhase
  held : T → Nat

inductive LockLabel (T : Type)
  | trylock (t : T) (wait : Bool)
  | acquire (t : T)
  | unlock (t : T)
  | release (t : T)

variable {T V M : Type}

section System
variable [DecidableEq T]

def lockNext (s : LockState T V M) : LockLabel T → Option (LockState T V M)
  | .trylock t wait =>
    if s.phase t = .out then
      match hmonitorTrylock t wait s.mon with
      | (.ret r, m) =>
        some { s with mon := m, held := if r = 1 then Function.update s.held t (s.held t + 1) else s.held }
      | (.waits, m) => some { s with mon := m, phase := Function.update s.phase t .blocked }
    else none
  | .acquire t =>
    if s.phase t = .blocked ∧ s.mon.mutex = none then
      some { s with mon := { s.mon with mutex := some t }, phase := Function.update s.phase t .locked }
    else none
  | .unlock t =>
    if s.phase t = .locked then
      some { s with mon := unlock s.mon, phase := Function.update s.phase t .out }
    else none
  | .release t =>
    if s.phase t = .out then
      some { s with mon := (hmonitorRelease t s.mon).2, held := Function.update s.held t (s.held t - 1) }
    else none

def lockSys : Lts (LockState T V M) (LockLabel T) := ⟨lockNext⟩

end System

/-- A monitor as `new_hmonitor` returns it, before any call. -/
def FreshLock [Double V] (s : LockState T V M) : Prop :=
  (∃ creator now spec, newHmonitor creator now spec = some s.mon) ∧ s.phase = (fun _ => .out) ∧ s.held = fun _ => 0

def Holds (s : LockState T V M) (t : T) : Prop := 0 < s.held t

instance (s : LockState T V M) (t : T) : Decidable (Holds s t) := inferInstanceAs (Decidable (0 < s.held t))

def AtMostOneHolder (s : LockState T V M) : Prop := ∀ a b, Holds s a → Holds s b → a = b

/-- Neither wrong branch is taken: a thread that finds the mutex locked by another thread is not the owner and
waits, and a release of the owner is its outermost one and not of another thread's lock. -/
def Clean (s : LockState T V M) : LockLabel T → Prop
  | .trylock t wait => s.mon.mutex = none ∨ s.mon.mutex = some t ∨ (wait = true ∧ s.mon.owner ≠ t)
  | .release t => s.mon.owner ≠ t ∨ ((s.mon.mutex = none ∨ s.mon.mutex = some t) ∧ s.held t ≤ 1)
  | .acquire _ => True
  | .unlock _ => True

/-! ## The invariant of clean runs -/

/-- A holder is the owner and locked the mutex; a waiting thread holds nothing. -/
structure LockInv (mutex : Option T) (owner : T) (phase : T → LockPhase) (held : T → Nat) : Prop where
  hold : ∀ t, 0 < held t → mutex = some t ∧ owner = t
  locked : ∀ t, phase t = .locked → mutex = some t
  wait : ∀ t, phase t ≠ .out → held t = 0

/-- The invariant of a state. -/
abbrev LockState.Inv (s : LockState T V M) : Prop := LockInv s.mon.mutex s.mon.owner s.phase s.held

theorem LockState.Inv.atMostOne {s : LockState T V M} (h : s.Inv) : AtMostOneHolder s := by
  intro a b ha hb
  exact Option.some.inj ((h.hold a ha).1.symm.trans (h.hold b hb).1)

theorem FreshLock.inv [Double V] {s : LockState T V M} (h : FreshLock s) : s.Inv := by
  obtain ⟨-, hp, hh⟩ := h
  refine ⟨fun t ht => ?_, fun t ht => ?_, fun t _ => by rw [hh]⟩
  · rw [hh] at ht; exact absurd ht (lt_irrefl 0)
  · rw [hp] at ht; cases ht

section Steps
variable [DecidableEq T] {mutex : Option T} {owner t : T} {phase : T → LockPhase} {held : T → Nat}

omit [DecidableEq T] in
/-- A mutex that is free or `t`'s is nobody else's. -/
theorem holder_eq {u : T} (hmx : mutex = none ∨ mutex = some t) (hu : mutex = some u) : u = t := by
  rcases hmx with h0 | h0
  · rw [h0] at hu
    cases hu
  · exact Option.some.inj (hu.symm.trans h0)

/-- A successful lock: `t` is the owner, locked the mutex, and holds one level more. -/
theorem LockInv.lock (h : LockInv mutex owner phase held) (hp : phase t = .out)
    (hmx : mutex = none ∨ mutex = some t) :
    LockInv (some t) t phase (Function.update held t (held t + 1)) := by
  have hother : ∀ u, mutex = some u → u = t := fun u => holder_eq hmx
  refine ⟨fun u hu => ?_, fun u hu => ?_, fun u hu => ?_⟩
  · by_cases hut : u = t
    · exact ⟨by rw [hut], hut.symm⟩
    · rw [Function.update_of_ne hut] at hu
      exact absurd (hother u (h.hold u hu).1) hut
  · have hut := hother u (h.locked u hu)
    rw [hut, hp] at hu
    cases hu
  · have hut : u ≠ t := fun he => hu (he ▸ hp)
    rw [Function.update_of_ne hut]
    exact h.wait u hu

/-- A thread that is not the owner starts to wait. -/
theorem LockInv.block (h : LockInv mutex owner phase held) (ho : owner ≠ t) :
    LockInv mutex owner (Function.update phase t .blocked) held := by
  refine ⟨h.hold, fun u hu => ?_, fun u hu => ?_⟩
  · by_cases hut : u = t
    · subst hut
      rw [Function.update_self] at hu
      cases hu
    · rw [Function.update_of_ne hut] at hu
      exact h.locked u hu
  · by_cases hut : u = t
    · subst hut
      exact Nat.eq_zero_of_not_pos fun hpos => ho (h.hold u hpos).2
    · rw [Function.update_of_ne hut] at hu
      exact h.wait u hu

/-- A waiting thread gets the mutex. -/
theorem LockInv.acquire (h : LockInv mutex owner phase held) (hp : phase t = .blocked) (hm : mutex = none) :
    LockInv (some t) owner (Function.update phase t .locked) held := by
  subst hm
  refine ⟨fun u hu => absurd (h.hold u hu).1 (by simp), fun u hu => ?_, fun u hu => ?_⟩
  · by_cases hut : u = t
    · rw [hut]
    · rw [Function.update_of_ne hut] at hu
      cases h.locked u hu
  · by_cases hut : u = t
    · subst hut
      exact h.wait u (by rw [hp]; decide)
    · rw [Function.update_of_ne hut] at hu
      exact h.wait u hu

/-- A waiting thread gives the mutex back. -/
theorem LockInv.leave (h : LockInv mutex owner phase held) (hp : phase t = .locked) :
    LockInv none owner (Function.update phase t .out) held := by
  have hother : ∀ u, mutex = some u → u = t := fun u hu => Option.some.inj (hu.symm.trans (h.locked t hp))
  have h0 : held t = 0 := h.wait t (by rw [hp]; decide)
  refine ⟨fun u hu => ?_, fun u hu => ?_, fun u hu => ?_⟩
  · rw [hother u (h.hold u hu).1, h0] at hu
    exact absurd hu (lt_irrefl 0)
  · by_cases hut : u = t
    · subst hut
      rw [Function.update_self] at hu
      cases hu
    · rw [Function.update_of_ne hut] at hu
      exact absurd (hother u (h.locked u hu)) hut
  · by_cases hut : u = t
    · rw [hut]; exact h0
    · rw [Function.update_of_ne hut] at hu
      exact h.wait u hu

/-- An outermost release: afterwards nobody holds the monitor. -/
theorem LockInv.release (h : LockInv mutex owner phase held) (hp : phase t = .out)
    (hmx : mutex = none ∨ mutex = some t) (h1 : held t ≤ 1) :
    LockInv none owner phase (Function.update held t (held t - 1)) := by
  have hother : ∀ u, mutex = some u → u = t := fun u => holder_eq hmx
  refine ⟨fun u hu => ?_, fun u hu => ?_, fun u hu => ?_⟩
  · by_cases hut : u = t
    · subst hut
      rw [Function.update_self] at hu
      omega
    · rw [Function.update_of_ne hut] at hu
      exact absurd (hother u (h.hold u hu).1) hut
  · have hut := hother u (h.locked u hu)
    rw [hut, hp] at hu
    cases hu
  · have hut : u ≠ t := fun he => hu (he ▸ hp)
    rw [Function.update_of_ne hut]
    exact h.wait u hu

end Steps

/-! ## The steps of clean runs -/

section Clean
variable [DecidableEq T] {s s' : LockState T V M} {t : T}

/-- What a clean call of `hmonitor_trylock` does: it locks, one level deeper, or starts to wait. -/
theorem Clean.trylock_cases {wait : Bool} (hc : Clean s (.trylock t wait))
    (hn : lockNext s (.trylock t wait) = some s') : s.phase t = .out ∧
      ((s.mon.mutex = none ∨ s.mon.mutex = some t) ∧
          s' = { s with
            mon := { s.mon with owner := t, mutex := some t }
            held := Function.update s.held t (s.held t + 1) } ∨
        s.mon.mutex ≠ none ∧ s.mon.owner ≠ t ∧ wait = true ∧
          s' = { s with phase := Function.update s.phase t .blocked }) := by
  simp only [lockNext] at hn
  by_cases hp : s.phase t = .out
  · refine ⟨hp, ?_⟩
    rw [if_pos hp] at hn
    cases hm : s.mon.mutex with
    | none =>
      simp only [hmonitorTrylock, hm, if_true, Option.some.injEq] at hn
      exact Or.inl ⟨Or.inl rfl, hn.symm⟩
    | some u =>
      by_cases hw : wait = true ∧ s.mon.owner ≠ t
      · simp only [hmonitorTrylock, hm, if_neg hw.2, if_pos hw.1, Option.some.injEq] at hn
        exact Or.inr ⟨nofun, hw.2, hw.1, hn.symm⟩
      · -- the mutex is the caller's own: re-entrant as its owner, or not waiting
        have hut : u = t := by
          rcases hc with h0 | h0 | h0
          · rw [hm] at h0; cases h0
          · exact Option.some.inj (hm.symm.trans h0)
          · exact absurd h0 hw
        subst hut
        refine Or.inl ⟨Or.inr rfl, ?_⟩
        have hr : hmonitorTrylock u wait s.mon = (.ret 1, { s.mon with owner := u, mutex := some u }) := by
          by_cases ho : s.mon.owner = u
          · have he : { s.mon with owner := u, mutex := some u } = s.mon := by rw [← hm]; subst ho; rfl
            rw [he]
            simp only [hmonitorTrylock, hm, if_pos ho]
          · have hwf : ¬ wait = true := fun h => hw ⟨h, ho⟩
            simp only [hmonitorTrylock, hm, if_neg ho, if_neg hwf]
        rw [hr] at hn
        simp only [if_true, Option.some.injEq] at hn
        exact hn.symm
  · rw [if_neg hp] at hn
    cases hn

theorem release_cases (hn : lockNext s (.release t) = some s') : s.phase t = .out ∧
    s' = { s with
      mon := if s.mon.owner = t then unlock s.mon else s.mon
      held := Function.update s.held t (s.held t - 1) } := by
  simp only [lockNext, hmonitorRelease] at hn
  by_cases hp : s.phase t = .out
  · rw [if_pos hp, Option.some.injEq] at hn
    refine ⟨hp, ?_⟩
    rw [← hn]
    by_cases ho : s.mon.owner = t
    · rw [if_pos ho, if_pos ho]
    · rw [if_neg ho, if_neg ho]
  · rw [if_neg hp] at hn
    cases hn

theorem LockState.Inv.step {l : LockLabel T} (h : s.Inv) (hc : Clean s l) (hn : lockNext s l = some s') :
    s'.Inv := by
  cases l with
  | trylock t wait =>
    obtain ⟨hp, ⟨hmx, rfl⟩ | ⟨-, ho, -, rfl⟩⟩ := hc.trylock_cases hn
    · exact h.lock hp hmx
    · exact h.block ho
  | acquire t =>
    simp only [lockNext] at hn
    split_ifs at hn with hp
    cases hn
    exact LockInv.acquire h hp.1 hp.2
  | unlock t =>
    simp only [lockNext] at hn
    split_ifs at hn with hp
    cases hn
    exact LockInv.leave h hp
  | release t =>
    obtain ⟨hp, rfl⟩ := release_cases hn
    by_cases ho : s.mon.owner = t
    · obtain ⟨hmx, h1⟩ := hc.resolve_left fun hne => hne ho
      rw [if_pos ho]
      exact LockInv.release h hp hmx h1
    · -- not the owner: the thread held nothing
      have h0 : s.held t = 0 := Nat.eq_zero_of_not_pos fun hpos => ho (h.hold t hpos).2
      have hheld : Function.update s.held t (s.held t - 1) = s.held := by
        rw [h0, Nat.zero_sub, ← h0, Function.update_eq_self]
      rw [if_neg ho]
      show LockInv s.mon.mutex s.mon.owner s.phase (Function.update s.held t (s.held t - 1))
      rw [hheld]
      exact h

theorem clean_inv [Double V] (h : lockSys.Reach FreshLock Clean s) : s.Inv :=
  h.invariant (fun _ => FreshLock.inv) fun _ _ _ hi hc hn => hi.step hc hn

/-- **Mutual exclusion.** In a clean run at most one thread holds the monitor, a holder is its owner and locked
its mutex, and a call of another thread is kept waiting and changes nothing. -/
theorem lock_exclusion [Double V] (h : lockSys.Reach FreshLock Clean s) :
    AtMostOneHolder s ∧ (∀ a, Holds s a → s.mon.owner = a ∧ s.mon.mutex = some a) ∧
      ∀ a b wait, Holds s a → b ≠ a → Clean s (.trylock b wait) → hmonitorTrylock b wait s.mon = (.waits, s.mon) := by
  have hi := clean_inv h
  refine ⟨hi.atMostOne, fun a ha => ⟨(hi.hold a ha).2, (hi.hold a ha).1⟩, fun a b wait ha hb hc => ?_⟩
  obtain ⟨hm, ho⟩ := hi.hold a ha
  have hob : s.mon.owner ≠ b := fun h => hb (h.symm.trans ho)
  rcases hc with h0 | h0 | ⟨rfl, -⟩
  · rw [hm] at h0; cases h0
  · exact absurd (Option.some.inj (hm.symm.trans h0)).symm hb
  · simp only [hmonitorTrylock, hm, if_neg hob, if_true]

end Clean

/-! ## A run that is not clean -/

/-- A monitor of one event and one row on a core, created by thread 0, and no call yet. -/
def lockDemo : LockState ℕ ℚ ℕ :=
  ⟨fakeMonitor, fun _ => .out, fun _ => 0⟩

theorem lockDemo_fresh : FreshLock lockDemo := ⟨⟨0, 0, fakeSpec [] ⟨.core, 1, 0, {0}⟩ fun _ => 0, rfl⟩, rfl, rfl⟩

/-- Thread 0 locks without waiting; thread 1 waits for the mutex. -/
theorem lock_exclusion_waiting : ∃ s, lockSys.exec lockDemo [.trylock 0 false, .trylock 1 true] = some s ∧
    Holds s 0 ∧ AtMostOneHolder s :=
  ⟨_, rfl, by decide, (lock_exclusion
    (.step (.trylock 1 true) (.step (.trylock 0 false) (.init lockDemo_fresh) (Or.inl rfl) rfl)
      (Or.inr (Or.inr ⟨rfl, by decide⟩)) rfl)).1⟩

/-- One call without `wait` on a held monitor returns 1: there are two holders. -/
theorem trylock_two_holders :
    ∃ s : LockState ℕ ℚ ℕ, lockSys.Reach FreshLock Lts.always s ∧ ¬ AtMostOneHolder s :=
  ⟨_, .of_exec (.init lockDemo_fresh)
    (show lockSys.exec lockDemo [.trylock 0 false, .trylock 1 false] = some _ from rfl),
    fun h => absurd (h 0 1 (by decide) (by decide)) (by decide)⟩

end Hmon
