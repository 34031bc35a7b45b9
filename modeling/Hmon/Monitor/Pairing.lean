import Hmon.Monitor.Lock

/-!
# Who unlocks the mutex of a monitor

`hmonitor_start` and `hmonitor_release` unlock the mutex for the owner. The owner is the creator of a monitor, whoever
last locked it, or whoever found it locked and did not wait.

* `pairSys` : the interleavings of all calls on one fresh monitor, `delete_hmonitor` included;
* `Paired` : every unlock by `hmonitor_start` or `hmonitor_release` is of the caller's own lock, and the mutex is free
  when it is destroyed;
* `turnOf` : the calls that go for the mutex and those that unlock it, by the owner and the stopped flag before them;
* `InTurn` : only the thread that was the first to go for the mutex since the last unlock unlocks it, and a monitor is
  deleted when none was;
* `paired_iff_inTurn` : **a run is paired exactly when its calls are in turn**.
-/

namespace Hmon
open Lib

/-- The monitor, its threads, and what happened to its mutex: for each unlock by `hmonitor_start` or
`hmonitor_release` the caller and the holder, and the holder at `pthread_mutex_destroy`. -/
structure PairState (T V M : Type) where
  mon : Hmonitor T V M
  phase : T → LockPhase
  unlocks : List (T × Option T)
  destroyed : Option (Option T)

inductive PairLabel (T V : Type)
  | trylock (t : T) (wait : Bool)
  | acquire (t : T)
  | unlock (t : T)
  | release (t : T)
  | start (t : T) (a : Answer V)
  | stop (t : T) (a : Answer V)
  | delete (t : T) (a : Answer V)

variable {T V M : Type}

/-- A monitor as `new_hmonitor` returns it, before any call. -/
def FreshPair [Double V] (s : PairState T V M) : Prop :=
  (∃ creator now spec, newHmonitor creator now spec = some s.mon) ∧ s.phase = (fun _ => .out) ∧
    s.unlocks = [] ∧ s.destroyed = none

/-- Every unlock is of the caller's own lock, and a destroyed mutex was free. -/
structure Paired (s : PairState T V M) : Prop where
  unlocks : ∀ u ∈ s.unlocks, u.2 = some u.1
  destroyed : ∀ h, s.destroyed = some h → h = none

section System
variable [DecidableEq T]

/-- A call of the thread `t` that unlocks the mutex and leaves the monitor `m`. -/
def PairState.unlocksBy (s : PairState T V M) (t : T) (m : Hmonitor T V M) : PairState T V M :=
  { s with mon := m, unlocks := (t, s.mon.mutex) :: s.unlocks }

/-- `hmonitor_start` reaches its `pthread_mutex_unlock`. -/
def startUnlocks (t : T) (a : Answer V) (m : Hmonitor T V M) : Bool := m.stopped && decide (m.owner = t) && a.ok

def pairNext (s : PairState T V M) : PairLabel T V → Option (PairState T V M)
  | .trylock t wait =>
    if s.phase t = .out ∧ s.destroyed = none then
      match hmonitorTrylock t wait s.mon with
      | (.ret _, m) => some { s with mon := m }
      | (.waits, m) => some { s with mon := m, phase := Function.update s.phase t .blocked }
    else none
  | .acquire t =>
    if s.phase t = .blocked ∧ s.mon.mutex = none ∧ s.destroyed = none then
      some { s with mon := { s.mon with mutex := some t }, phase := Function.update s.phase t .locked }
    else none
  | .unlock t =>
    if s.phase t = .locked ∧ s.destroyed = none then
      some { s with mon := unlock s.mon, phase := Function.update s.phase t .out }
    else none
  | .release t =>
    if s.phase t = .out ∧ s.destroyed = none then
      if s.mon.owner = t then some (s.unlocksBy t (hmonitorRelease t s.mon).2)
      else some { s with mon := (hmonitorRelease t s.mon).2 }
    else none
  | .start t a =>
    if s.phase t = .out ∧ s.destroyed = none then
      if startUnlocks t a s.mon then some (s.unlocksBy t (hmonitorStart t a s.mon).mon)
      else some { s with mon := (hmonitorStart t a s.mon).mon }
    else none
  | .stop t a =>
    if s.phase t = .out ∧ s.destroyed = none then some { s with mon := (hmonitorStop t a s.mon).mon } else none
  | .delete t a =>
    if s.phase t = .out ∧ s.destroyed = none then
      let m := (hmonitorStop t a s.mon).mon
      some { s with mon := m, destroyed := some m.mutex }
    else none

/-- The interleavings of all calls on one monitor; nothing is called after its deletion. -/
def pairSys : Lts (PairState T V M) (PairLabel T V) := ⟨pairNext⟩

end System

/-! ## Turns -/

/-- A thread goes for the mutex, or unlocks it. -/
inductive Turn (T : Type)
  | goes (t : T)
  | unlocks (t : T)
  deriving DecidableEq

/-- What a call does, as its arguments, the owner and the stopped flag before it tell: `hmonitor_trylock`, its wait and
the stop of a running monitor that another thread owns go for the mutex. -/
def turnOf [DecidableEq T] (s : PairState T V M) : PairLabel T V → List (Turn T)
  | .trylock t _ | .acquire t => [.goes t]
  | .unlock t => [.unlocks t]
  | .release t => if s.mon.owner = t then [.unlocks t] else []
  | .start t a => if startUnlocks t a s.mon then [.unlocks t] else []
  | .stop t _ | .delete t _ => if s.mon.stopped = true ∨ s.mon.owner = t then [] else [.goes t]

/-- The turns begin anew: there are none, or the last one is an unlock. -/
def Anew (turns : List (Turn T)) : Prop := ∀ x ∈ turns.getLast?, ∃ u, x = .unlocks u

/-- The thread `t` was the first to go for the mutex since the last unlock, or since the creation. -/
def CameFirst (t : T) (turns : List (Turn T)) : Prop :=
  ∃ before after, turns = before ++ .goes t :: after ∧ Anew before ∧ ∀ x ∈ after, ∃ u, x = .goes u

/-- A thread that unlocks the mutex came first; a monitor is deleted when nobody went for the mutex, and the deletion
does not either: the monitor is stopped, or the caller is its owner. -/
def InTurn [DecidableEq T] (turns : List (Turn T)) (s : PairState T V M) : PairLabel T V → Prop
  | .release t => s.mon.owner = t → CameFirst t turns
  | .start t a => startUnlocks t a s.mon = true → CameFirst t turns
  | .delete t _ => Anew turns ∧ (s.mon.stopped = true ∨ s.mon.owner = t)
  | _ => True

/-- Every call of the run is in turn, after the turns of the calls before it. -/
def CallsInTurn [DecidableEq T] (s : PairState T V M) (ls : List (PairLabel T V)) : Prop :=
  pairSys.AlongLog (fun turns s l => turns ++ turnOf s l) InTurn [] s ls

/-- Who has the mutex after a turn, if `h` had it before. -/
def Turn.next (h : Option T) : Turn T → Option T
  | goes t => h.or (some t)
  | unlocks _ => none

/-- Who has the mutex after the turns. -/
def lastHolder (turns : List (Turn T)) : Option T := turns.foldl Turn.next none

theorem lastHolder_append (turns more : List (Turn T)) :
    lastHolder (turns ++ more) = more.foldl Turn.next (lastHolder turns) := List.foldl_append

theorem anew_append (turns : List (Turn T)) (x : Turn T) : Anew (turns ++ [x]) ↔ ∃ u, x = .unlocks u := by
  simp [Anew]

/-- Nobody has the mutex exactly when the turns begin anew. -/
theorem lastHolder_none_iff (turns : List (Turn T)) : lastHolder turns = none ↔ Anew turns := by
  induction turns using List.reverseRecOn with
  | nil => exact iff_of_true rfl fun x hx => by simp at hx
  | append_singleton turns x ih =>
    rw [lastHolder_append, anew_append, List.foldl_cons, List.foldl_nil]
    cases x with
    | goes t => simp [Turn.next]
    | unlocks t => simp [Turn.next]

theorem cameFirst_append {t : T} {turns : List (Turn T)} {x : Turn T} :
    CameFirst t (turns ++ [x]) ↔ x = .goes t ∧ Anew turns ∨ (∃ u, x = .goes u) ∧ CameFirst t turns := by
  constructor
  · rintro ⟨before, after, heq, hanew, hafter⟩
    rcases List.eq_nil_or_concat after with rfl | ⟨after, y, rfl⟩
    · obtain ⟨rfl, hx⟩ := List.append_inj' heq rfl
      exact .inl ⟨(List.cons.inj hx).1, hanew⟩
    · rw [List.concat_eq_append, ← List.cons_append, ← List.append_assoc] at heq
      obtain ⟨rfl, hx⟩ := List.append_inj' heq rfl
      rw [List.concat_eq_append] at hafter
      refine .inr ⟨(List.cons.inj hx).1 ▸ hafter y (List.mem_append_right _ List.mem_cons_self), before, after, rfl,
        hanew, fun z hz => hafter z (List.mem_append_left _ hz)⟩
  · rintro (⟨rfl, hanew⟩ | ⟨hx, before, after, rfl, hanew, hafter⟩)
    · exact ⟨turns, [], rfl, hanew, fun x hx => absurd hx List.not_mem_nil⟩
    · refine ⟨before, after ++ [x], by rw [List.append_assoc, List.cons_append], hanew, fun y hy => ?_⟩
      rcases List.mem_append.mp hy with hy | hy
      · exact hafter y hy
      · exact List.mem_singleton.mp hy ▸ hx

/-- A thread has the mutex exactly when it came first. -/
theorem lastHolder_some_iff {t : T} (turns : List (Turn T)) : lastHolder turns = some t ↔ CameFirst t turns := by
  induction turns using List.reverseRecOn with
  | nil => exact iff_of_false (by simp [lastHolder]) fun ⟨before, after, heq, _⟩ => by simp at heq
  | append_singleton turns x ih =>
    rw [lastHolder_append, cameFirst_append, List.foldl_cons, List.foldl_nil, ← ih, ← lastHolder_none_iff]
    cases x with
    | goes u =>
      cases h : lastHolder turns with
      | none => simp [Turn.next]
      | some v => simp [Turn.next]
    | unlocks u => simp [Turn.next]

section Steps
variable [DecidableEq T] {s s' : PairState T V M} {t : T} {m : Hmonitor T V M}

/-! ## The mutex after a call -/

theorem trylock_mutex (t : T) (wait : Bool) (m : Hmonitor T V M) :
    (hmonitorTrylock t wait m).2.mutex = m.mutex.or (some t) := by
  unfold hmonitorTrylock
  cases hm : m.mutex with
  | none => rfl
  | some u =>
    simp only
    split_ifs <;> simp [hm]

theorem stop_mutex (t : T) (a : Answer V) (m : Hmonitor T V M) :
    (hmonitorStop t a m).mon.mutex =
      if m.stopped = true ∨ m.owner = t then m.mutex else m.mutex.or (some t) := by
  by_cases hs : m.stopped = true
  · rw [hmonitorStop_of_stopped t a hs, if_pos (Or.inl hs)]
  · have hf : m.stopped = false := by rwa [Bool.not_eq_true] at hs
    rw [hmonitorStop_of_running t a hf]
    by_cases ho : m.owner = t
    · simp [ho]
    · simp [hs, ho]

/-- The mutex is free after the stop of a deletion exactly when it was, and the stop did not lock it. -/
theorem stop_free_iff (t : T) (a : Answer V) (m : Hmonitor T V M) :
    (hmonitorStop t a m).mon.mutex = none ↔ m.mutex = none ∧ (m.stopped = true ∨ m.owner = t) := by
  rw [stop_mutex]
  split_ifs with h
  · exact (and_iff_left h).symm
  · refine iff_of_false ?_ fun hm => h hm.2
    cases m.mutex <;> simp

theorem start_mutex (a : Answer V) (m : Hmonitor T V M) :
    (hmonitorStart t a m).mon.mutex = if startUnlocks t a m then none else m.mutex := by
  unfold hmonitorStart startUnlocks unlock
  cases m.stopped <;> cases a.ok <;> by_cases ho : m.owner = t <;> simp [ho]

/-- A call leaves the mutex as its turn says. -/
theorem pairNext_mutex {l : PairLabel T V} (hn : pairNext s l = some s') :
    s'.mon.mutex = (turnOf s l).foldl Turn.next s.mon.mutex := by
  cases l with
  | trylock t wait =>
    simp only [pairNext] at hn
    split_ifs at hn
    have hmutex := trylock_mutex t wait s.mon
    split at hn <;> rename_i hm <;> cases hn <;> rw [hm] at hmutex <;> exact hmutex
  | acquire t =>
    simp only [pairNext] at hn
    split_ifs at hn with hc
    cases hn
    show some t = s.mon.mutex.or (some t)
    rw [hc.2.1, Option.none_or]
  | unlock t =>
    simp only [pairNext] at hn
    split_ifs at hn
    cases hn
    rfl
  | release t =>
    simp only [pairNext] at hn
    split_ifs at hn with hc ho <;> cases hn <;> simp [turnOf, hmonitorRelease, PairState.unlocksBy, unlock, Turn.next, ho]
  | start t a =>
    simp only [pairNext] at hn
    split_ifs at hn with hc hu <;> cases hn <;> simp [turnOf, PairState.unlocksBy, start_mutex, Turn.next, hu]
  | stop t a | delete t a =>
    simp only [pairNext] at hn
    split_ifs at hn
    cases hn
    simp only [turnOf, stop_mutex]
    split_ifs <;> rfl

/-! ## One step -/

/-- The mutex is as the turns so far say. -/
def Told (turns : List (Turn T)) (s : PairState T V M) : Prop := s.mon.mutex = lastHolder turns

omit [DecidableEq T] in
theorem Paired.same_log (h : Paired s) (hu : s'.unlocks = s.unlocks) (hd : s'.destroyed = s.destroyed) : Paired s' :=
  ⟨fun u hmem => h.unlocks u (hu ▸ hmem), fun x hx => h.destroyed x (hd ▸ hx)⟩

omit [DecidableEq T] in
/-- An unlock is of the caller's own lock exactly when the caller came first. -/
theorem paired_unlocksBy_iff {turns : List (Turn T)} (h : Told turns s) (hg : Paired s) :
    Paired (s.unlocksBy t m) ↔ CameFirst t turns := by
  rw [← lastHolder_some_iff, ← h]
  refine ⟨fun hg' => hg'.unlocks (t, s.mon.mutex) List.mem_cons_self, fun hm => ⟨fun u hu => ?_, hg.destroyed⟩⟩
  rcases List.mem_cons.mp hu with rfl | hu
  · exact hm
  · exact hg.unlocks u hu

/-- A call keeps the pairing exactly when it is in turn. -/
theorem pairNext_paired_iff {turns : List (Turn T)} {l : PairLabel T V} (h : Told turns s) (hg : Paired s)
    (hn : pairNext s l = some s') : Paired s' ↔ InTurn turns s l := by
  cases l with
  | trylock t wait =>
    simp only [pairNext] at hn
    split_ifs at hn
    split at hn <;> cases hn <;> exact iff_of_true (hg.same_log rfl rfl) trivial
  | acquire t | unlock t | stop t a =>
    simp only [pairNext] at hn
    split_ifs at hn
    cases hn
    exact iff_of_true (hg.same_log rfl rfl) trivial
  | release t =>
    simp only [pairNext] at hn
    split_ifs at hn with hc ho
    · cases hn
      exact (paired_unlocksBy_iff h hg).trans ⟨fun hf _ => hf, fun hf => hf ho⟩
    · cases hn
      exact iff_of_true (hg.same_log rfl rfl) fun he => absurd he ho
  | start t a =>
    simp only [pairNext] at hn
    split_ifs at hn with hc hu
    · cases hn
      exact (paired_unlocksBy_iff h hg).trans ⟨fun hf _ => hf, fun hf => hf hu⟩
    · cases hn
      exact iff_of_true (hg.same_log rfl rfl) fun he => absurd he hu
  | delete t a =>
    simp only [pairNext] at hn
    split_ifs at hn
    cases hn
    have hfree : (hmonitorStop t a s.mon).mon.mutex = none ↔ InTurn turns s (.delete t a) := by
      rw [stop_free_iff, h, lastHolder_none_iff]
      rfl
    rw [← hfree]
    refine ⟨fun hg' => hg'.destroyed _ rfl, fun hm => ⟨hg.unlocks, fun x hx => ?_⟩⟩
    exact (Option.some.inj hx).symm.trans hm

theorem Told.step {turns : List (Turn T)} {l : PairLabel T V} (h : Told turns s) (hn : pairNext s l = some s') :
    Told (turns ++ turnOf s l) s' := by
  unfold Told
  rw [pairNext_mutex hn, lastHolder_append, ← h]

/-- Nothing is called after the deletion, and what was unlocked stays on the record. -/
theorem pairNext_log {l : PairLabel T V} (hn : pairNext s l = some s') :
    s.destroyed = none ∧ ∀ u ∈ s.unlocks, u ∈ s'.unlocks := by
  cases l with
  | trylock t wait =>
    simp only [pairNext] at hn
    split_ifs at hn with hc
    refine ⟨hc.2, ?_⟩
    split at hn <;> cases hn <;> exact fun _ => id
  | release t | start t a =>
    simp only [pairNext] at hn
    split_ifs at hn with hc ho
    · cases hn
      exact ⟨hc.2, fun u hu => List.mem_cons_of_mem _ hu⟩
    · cases hn
      exact ⟨hc.2, fun _ => id⟩
  | acquire t =>
    simp only [pairNext] at hn
    split_ifs at hn with hc
    cases hn
    exact ⟨hc.2.2, fun _ => id⟩
  | unlock t | stop t a | delete t a =>
    simp only [pairNext] at hn
    split_ifs at hn with hc
    cases hn
    exact ⟨hc.2, fun _ => id⟩

/-- Once broken, the pairing stays broken. -/
theorem Paired.back {l : PairLabel T V} (hn : pairNext s l = some s') (hg : Paired s') : Paired s := by
  obtain ⟨hd, hu⟩ := pairNext_log hn
  refine ⟨fun u hmem => hg.unlocks u (hu u hmem), fun x hx => ?_⟩
  rw [hd] at hx
  cases hx

omit [DecidableEq T] in
theorem FreshPair.told [Double V] (h : FreshPair s) : Told [] s := by
  obtain ⟨⟨creator, now, spec, hm⟩, -⟩ := h
  exact (newHmonitor_fresh hm).2.2.1

omit [DecidableEq T] in
theorem FreshPair.paired [Double V] (h : FreshPair s) : Paired s := by
  obtain ⟨-, -, hu, hd⟩ := h
  refine ⟨fun u hmem => ?_, fun x hx => ?_⟩
  · rw [hu] at hmem
    exact absurd hmem List.not_mem_nil
  · rw [hd] at hx
    cases hx

/-- **Every unlock is of the caller's own lock and the destroyed mutex is free, in a run, exactly when its calls are
in turn.** -/
theorem paired_iff_inTurn [Double V] {ls : List (PairLabel T V)} (hf : FreshPair s) (he : pairSys.exec s ls = some s') :
    Paired s' ↔ CallsInTurn s ls :=
  Lts.exec_good_iff (I := Told) (G := Paired)
    (fun _ _ _ _ hi hg hn => ⟨hi.step hn, pairNext_paired_iff hi hg hn⟩) (fun _ _ _ hn hg => hg.back hn)
    hf.told hf.paired he

end Steps

/-! ## A new monitor that its creator starts -/

/-- A monitor of one event and one row on a core, created by thread 0, and no call yet. -/
def pairDemo : PairState ℕ ℚ ℕ := ⟨fakeMonitor, fun _ => .out, [], none⟩

theorem pairDemo_fresh : FreshPair pairDemo :=
  ⟨⟨0, 0, fakeSpec [] ⟨.core, 1, 0, {0}⟩ fun _ => 0, rfl⟩, rfl, rfl, rfl⟩

/-- Thread 1 locks the monitor, thread 0 waits until the start of thread 1 gives the mutex back; thread 0 then stops the
monitor and releases it, and thread 2 deletes it. -/
def pairedCalls : List (PairLabel ℕ ℚ) :=
  [.trylock 1 false, .trylock 0 true, .start 1 ⟨true, [], 0⟩, .acquire 0, .unlock 0, .stop 0 ⟨true, [], 0⟩, .release 0,
    .delete 2 ⟨true, [], 0⟩]

theorem paired_calls : ∃ s, pairSys.exec pairDemo pairedCalls = some s ∧ s.unlocks = [(0, some 0), (1, some 1)] ∧
    s.destroyed = some none ∧ CallsInTurn pairDemo pairedCalls :=
  ⟨_, rfl, by decide, by decide, (paired_iff_inTurn pairDemo_fresh rfl).mp
    ⟨by decide, fun _ hx => (Option.some.inj hx).symm⟩⟩

/-- The creator of a monitor starts it: it unlocks a mutex that nobody locked. -/
theorem start_unlocks_free : ∃ s : PairState ℕ ℚ ℕ, pairSys.exec pairDemo [.start 0 ⟨true, [], 0⟩] = some s ∧
    ¬ Paired s := by
  refine ⟨_, rfl, fun h => ?_⟩
  have := h.unlocks (0, none) (by decide)
  cases this

end Hmon
