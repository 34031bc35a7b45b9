import Hmon.C
import Hmon.Hwloc

/-!
# Monitors (`hmonitor.c`)

* `Hmonitor` : `struct hmon`; its mutex is the thread that locked it;
* `Answer` : what the performance plugin and the clock answer to one call;
* `hmonitorTrylock`, `hmonitorRelease`, `hmonitorStart`, `hmonitorStop`, `hmonitorRead`, `hmonitorReduce`,
  `hmonitorReset`, `newHmonitor`, `hmonitorOutput` : the functions of `hmonitor.c`, run by the thread `self`;
* `Outcome` : the returned value, the monitor afterwards and what the call did (`Event`);
* `SameControl`, `SameShape`, `OnlyControl` : what calls leave alone.
-/

namespace Hmon

/-- The eventset of a monitor by the plugin behind it. The chained plugins hold their child monitors. -/
inductive Eventset (M : Type)
  | leaf
  | hierarchical (childEvents : List M)
  | accumulate (childEvents : List M)

def Eventset.childEvents {M : Type} : Eventset M → List M
  | leaf => []
  | hierarchical cs => cs
  | accumulate cs => cs

/-- `void (*model)(struct hmon*)`: the new samples, from `n_events`, `window`, `last`, `total`, the events and
the old samples. -/
abbrev Model (V : Type) := (nEvents window last total : Nat) → (events samples : List V) → List V

/-- `struct hmon`. `T` are threads, `V` is `double`, `M` are pointers to monitors. -/
structure Hmonitor (T V M : Type) where
  id : CString
  location : Obj
  refTime : Int
  eventset : Eventset M
  /-- `window` rows of `n_events` values and a timestamp. -/
  events : List V
  nEvents : Nat
  window : Nat
  last : Nat
  total : Nat
  samples : List V
  max : List V
  min : List V
  nSamples : Nat
  model : Option (Model V)
  output : Option Nat
  display : Nat
  stopped : Bool
  owner : T
  /-- The thread that locked the mutex, `none` while it is unlocked. -/
  mutex : Option T

/-- One call's answers: does the plugin succeed (`false` is a returned `-1`), the values its
`eventset_read` writes, and the clock in nanoseconds. -/
structure Answer (V : Type) where
  ok : Bool
  values : List V
  now : Int

/-- What a call does: it calls the plugin's `eventset_start` or `eventset_stop`, takes the next row of the
ring, returns 1 from `hmonitor_read`, or returns 1 from `hmonitor_reduce`. -/
inductive Event
  | start
  | stop
  | sample
  | read
  | reduce
  deriving DecidableEq

structure Outcome (T V M : Type) where
  ret : Int
  mon : Hmonitor T V M
  events : List Event

/-- `hmonitor_trylock` returns or waits for the mutex. -/
inductive Trylock
  | ret (r : Int)
  | waits
  deriving DecidableEq

variable {T V M : Type}

section Lock
variable [DecidableEq T]

/-! ## The lock -/

/-- `pthread_mutex_unlock`. The mutex has the default type: any thread can unlock it, and unlocking a free
one leaves it free. -/
def unlock (m : Hmonitor T V M) : Hmonitor T V M := { m with mutex := none }

/-- `hmonitor_trylock`. `pthread_mutex_trylock` on an initialised mutex returns 0 or `EBUSY`. -/
def hmonitorTrylock (self : T) (wait : Bool) (m : Hmonitor T V M) : Trylock × Hmonitor T V M :=
  match m.mutex with
  | some _ =>
    if m.owner = self then (.ret 1, m)
    else if wait then (.waits, m)
    -- EBUSY without `wait` leaves the `if` and falls to the end of the function
    else (.ret 1, { m with owner := self })
  | none => (.ret 1, { m with mutex := some self, owner := self })

def hmonitorRelease (self : T) (m : Hmonitor T V M) : Int × Hmonitor T V M :=
  if m.owner = self then (1, unlock m) else (0, m)

/-! ## Start and stop -/

def hmonitorStart (self : T) (a : Answer V) (m : Hmonitor T V M) : Outcome T V M :=
  if !m.stopped then ⟨1, m, []⟩
  else if m.owner = self then
    if !a.ok then ⟨-1, m, [.start]⟩ else ⟨1, unlock { m with stopped := false }, [.start]⟩
  else ⟨0, m, []⟩

/-- The condition of `hmonitor_stop`: `m->owner == pthread_self() || hmonitor_trylock(m, 0) == 1`. -/
def stopLock (self : T) (m : Hmonitor T V M) : Trylock × Hmonitor T V M :=
  if m.owner = self then (.ret 1, m) else hmonitorTrylock self false m

def hmonitorStop (self : T) (a : Answer V) (m : Hmonitor T V M) : Outcome T V M :=
  if m.stopped then ⟨1, m, []⟩
  else
    let (r, m) := stopLock self m
    if r = .ret 1 then
      if !a.ok then ⟨-1, m, [.stop]⟩ else ⟨1, { m with stopped := true }, [.stop]⟩
    else ⟨0, m, []⟩

end Lock

/-! ## The ring of events -/

section Ring
variable [DecidableEq T] [Double V]

/-- The index of the first cell of row `i` (`hmonitor_get_events`). -/
def hmonitorGetEvents (m : Hmonitor T V M) (i : Nat) : Nat := u32 (i * u32 (m.nEvents + 1))

def hmonitorGetEvent (m : Hmonitor T V M) (row event : Nat) : Option V :=
  m.events[u32 (row * u32 (m.nEvents + 1) + event)]?

def hmonitorGetTimestamp (m : Hmonitor T V M) (i : Nat) : Option V :=
  m.events[u32 (i * u32 (m.nEvents + 1) + m.nEvents)]?

def hmonitorSetTimestamp (m : Hmonitor T V M) (timestamp : Int) : Hmonitor T V M :=
  { m with events := m.events.set (u32 (m.last * u32 (m.nEvents + 1) + m.nEvents)) (Double.ofLong timestamp) }

/-- Consecutive writes from cell `i` on. -/
def writeCells {β : Type} : List β → Nat → List β → List β
  | cells, _, [] => cells
  | cells, i, v :: vs => writeCells (cells.set i v) (i + 1) vs

/-- The first half of `hmonitor_read`: the next row, the count and the timestamp. -/
def nextRow (now : Int) (m : Hmonitor T V M) : Hmonitor T V M :=
  hmonitorSetTimestamp { m with last := u32 (m.last + 1) % m.window, total := u32 (m.total + 1) } (now - m.refTime)

/-- `hmonitor_read` on a plugin that reads counters. A failed `eventset_read` leaves the row as it is. -/
def hmonitorRead (self : T) (a : Answer V) (m : Hmonitor T V M) : Outcome T V M :=
  if m.owner = self then
    let m := nextRow a.now m
    if !a.ok then ⟨-1, m, [.sample]⟩
    else
      let row := hmonitorGetEvents m m.last
      ⟨1, { m with events := writeCells m.events row (a.values.take m.nEvents) }, [.sample, .read]⟩
  else ⟨0, m, []⟩

def hmonitorReduce (self : T) (m : Hmonitor T V M) : Outcome T V M :=
  if m.owner = self then
    let samples := match m.model with
      | some f => f m.nEvents m.window m.last m.total m.events m.samples
      | none => (m.events.drop (hmonitorGetEvents m m.last)).take m.nSamples ++ m.samples.drop m.nSamples
    ⟨1, { m with
      samples := samples
      max := List.zipWith (fun x s => if s < x then x else s) m.max samples
      min := List.zipWith (fun x s => if x < s then x else s) m.min samples }, [.reduce]⟩
  else ⟨0, m, []⟩

/-! ## Creation and reset -/

/-- `hmonitor_reset` without the plugin's `eventset_reset`. The loop zeroes the cells below `zeroed`; a result about the
buffer also states that they are in it. -/
def hmonitorReset (now : Int) (m : Hmonitor T V M) : Hmonitor T V M :=
  let zeroed := u32 (m.window * m.nEvents + 1)
  { m with
    last := m.window - 1
    total := 0
    stopped := true
    events := (m.events.take zeroed).map (fun _ => 0) ++ m.events.drop zeroed
    samples := List.replicate m.nSamples 0
    max := List.replicate m.nSamples Double.dblMin
    min := List.replicate m.nSamples Double.dblMax
    refTime := now }

/-- What `new_hmonitor` is asked for, once the plugins are loaded and the events added: `addedEvents` is the
number of events of the eventset, `plugin` the model plugin's name resolved (`some none`: a name that no
plugin exports), `nSamples` the number of samples asked for, `raw` the contents of the allocated memory. -/
structure Spec (V M : Type) where
  id : CString
  location : Obj
  eventset : Eventset M
  addedEvents : Nat
  window : Nat
  plugin : Option (Option (Model V))
  nSamples : Nat
  output : Option Nat
  raw : Nat → V

/-- `new_hmonitor`, without the plugin's `eventset_reset`. -/
def newHmonitor (self : T) (now : Int) (s : Spec V M) : Option (Hmonitor T V M) :=
  if s.window = 0 then none
  else some (hmonitorReset now
    { id := s.id, location := s.location, refTime := 0, eventset := s.eventset,
      events := (List.range (u32 (s.window * u32 (s.addedEvents + 1)))).map s.raw,
      nEvents := s.addedEvents, window := s.window, last := 0, total := 0,
      samples := [], max := [], min := [],
      nSamples := if s.plugin.isSome then s.nSamples else s.addedEvents,
      model := s.plugin.join, output := s.output, display := 0,
      stopped := true, owner := self, mutex := none })

/-- The request for a monitor of the fake plugin with one event and one row. -/
def fakeSpec (id : CString) (location : Obj) (raw : Nat → V) : Spec V M where
  id := id
  location := location
  eventset := .leaf
  addedEvents := 1
  window := 1
  plugin := none
  nSamples := 0
  output := none
  raw := raw

/-- A monitor of the fake plugin as thread 0 creates it. -/
def fakeMonitor : Hmonitor ℕ ℚ ℕ := (newHmonitor 0 0 (fakeSpec [] ⟨.core, 1, 0, {0}⟩ fun _ => 0)).get rfl

/-- `hmonitor_output`: the printed location, timestamp and samples. -/
def hmonitorOutput (self : T) (force : Bool) (m : Hmonitor T V M) : Option (Obj × Option V × List V) :=
  if m.output ≠ none ∧ (m.owner = self ∨ force) then
    some (m.location, hmonitorGetTimestamp m m.last, m.samples.take m.nSamples)
  else none

end Ring

/-! ## What the calls leave alone -/

/-- The same stopped flag, owner, mutex and eventset. -/
structure SameControl (m m' : Hmonitor T V M) : Prop where
  stopped : m'.stopped = m.stopped
  owner : m'.owner = m.owner
  mutex : m'.mutex = m.mutex
  eventset : m'.eventset = m.eventset

/-- The same object and eventset: what no call changes after the creation of a monitor. -/
structure SameShape (m m' : Hmonitor T V M) : Prop where
  location : m'.location = m.location
  eventset : m'.eventset = m.eventset

theorem nextRow_control [Double V] (now : Int) (m : Hmonitor T V M) : SameControl m (nextRow now m) :=
  ⟨rfl, rfl, rfl, rfl⟩

theorem newHmonitor_fresh [Double V] {self : T} {now : Int} {s : Spec V M} {m : Hmonitor T V M}
    (h : newHmonitor self now s = some m) :
    m.stopped = true ∧ m.owner = self ∧ m.mutex = none ∧ m.eventset = s.eventset := by
  unfold newHmonitor at h
  by_cases hw : s.window = 0
  · rw [if_pos hw] at h; cases h
  · rw [if_neg hw, Option.some.injEq] at h
    subst h
    exact ⟨rfl, rfl, rfl, rfl⟩

section Cases
variable [DecidableEq T]

theorem hmonitorRead_control [Double V] (self : T) (a : Answer V) (m : Hmonitor T V M) :
    SameControl m (hmonitorRead self a m).mon := by
  unfold hmonitorRead
  split_ifs <;> exact ⟨rfl, rfl, rfl, rfl⟩

theorem hmonitorReduce_control [Double V] (self : T) (m : Hmonitor T V M) :
    SameControl m (hmonitorReduce self m).mon := by
  unfold hmonitorReduce
  split_ifs <;> exact ⟨rfl, rfl, rfl, rfl⟩

/-! ## The lock, case by case -/

/-- Without `wait`, `hmonitor_trylock` always returns 1 and makes its caller the owner. -/
theorem trylock_nowait (self : T) (m : Hmonitor T V M) :
    hmonitorTrylock self false m = (.ret 1, { m with owner := self, mutex := m.mutex.or (some self) }) := by
  unfold hmonitorTrylock
  split
  · rename_i t hm
    have hor : m.mutex.or (some self) = m.mutex := by rw [hm]; rfl
    rw [hor]
    by_cases ho : m.owner = self
    · subst ho
      rw [if_pos rfl]
    · rw [if_neg ho]
      rfl
  · rename_i hm
    rw [hm]
    rfl

/-- The lock that `hmonitor_stop` takes is never refused; only a non-owner locks the mutex. -/
theorem stopLock_eq (self : T) (m : Hmonitor T V M) :
    stopLock self m = (.ret 1, { m with
      owner := self
      mutex := if m.owner = self then m.mutex else m.mutex.or (some self) }) := by
  unfold stopLock
  split_ifs with ho
  · subst ho
    rfl
  · exact trylock_nowait self m

theorem hmonitorStop_of_stopped (self : T) (a : Answer V) {m : Hmonitor T V M} (h : m.stopped = true) :
    hmonitorStop self a m = ⟨1, m, []⟩ := by
  simp [hmonitorStop, h]

theorem hmonitorStop_of_running (self : T) (a : Answer V) {m : Hmonitor T V M} (h : m.stopped = false) :
    hmonitorStop self a m = ⟨if a.ok then 1 else -1, { m with
      owner := self
      stopped := a.ok
      mutex := if m.owner = self then m.mutex else m.mutex.or (some self) }, [.stop]⟩ := by
  unfold hmonitorStop
  rw [stopLock_eq]
  cases a.ok <;> simp [h]

theorem hmonitorStart_of_running (self : T) (a : Answer V) {m : Hmonitor T V M} (h : m.stopped = false) :
    hmonitorStart self a m = ⟨1, m, []⟩ := by
  simp [hmonitorStart, h]

theorem hmonitorStart_of_other {self : T} (a : Answer V) {m : Hmonitor T V M} (h : m.stopped = true)
    (ho : m.owner ≠ self) : hmonitorStart self a m = ⟨0, m, []⟩ := by
  simp [hmonitorStart, h, ho]

theorem hmonitorStart_of_owner {self : T} {a : Answer V} {m : Hmonitor T V M} (h : m.stopped = true)
    (ho : m.owner = self) (ha : a.ok = true) :
    hmonitorStart self a m = ⟨1, { m with stopped := false, mutex := none }, [.start]⟩ := by
  simp [hmonitorStart, h, ho, ha, unlock]

/-- A start leaves the owner alone. -/
theorem hmonitorStart_owner (self : T) (a : Answer V) (m : Hmonitor T V M) :
    (hmonitorStart self a m).mon.owner = m.owner := by
  unfold hmonitorStart
  split_ifs <;> rfl

/-! ## The calls that steer a monitor -/

/-- Nothing but the stopped flag, the owner and the mutex is new. -/
def OnlyControl (m m' : Hmonitor T V M) : Prop :=
  ∃ stopped owner mutex, m' = { m with stopped := stopped, owner := owner, mutex := mutex }

omit [DecidableEq T] in
theorem OnlyControl.shape {m m' : Hmonitor T V M} (h : OnlyControl m m') : SameShape m m' := by
  obtain ⟨_, _, _, rfl⟩ := h
  exact ⟨rfl, rfl⟩

theorem hmonitorTrylock_onlyControl (self : T) (wait : Bool) (m : Hmonitor T V M) :
    OnlyControl m (hmonitorTrylock self wait m).2 := by
  unfold hmonitorTrylock
  split
  · split_ifs <;> exact ⟨_, _, _, rfl⟩
  · exact ⟨_, _, _, rfl⟩

theorem hmonitorRelease_onlyControl (self : T) (m : Hmonitor T V M) : OnlyControl m (hmonitorRelease self m).2 := by
  unfold hmonitorRelease
  split_ifs <;> exact ⟨_, _, _, rfl⟩

theorem hmonitorStart_onlyControl (self : T) (a : Answer V) (m : Hmonitor T V M) :
    OnlyControl m (hmonitorStart self a m).mon := by
  unfold hmonitorStart
  split_ifs <;> exact ⟨_, _, _, rfl⟩

theorem hmonitorStop_onlyControl (self : T) (a : Answer V) (m : Hmonitor T V M) :
    OnlyControl m (hmonitorStop self a m).mon := by
  by_cases h : m.stopped = true
  · rw [hmonitorStop_of_stopped self a h]
    exact ⟨_, _, _, rfl⟩
  · rw [Bool.not_eq_true] at h
    rw [hmonitorStop_of_running self a h]
    exact ⟨_, _, _, rfl⟩

theorem hmonitorStart_shape (self : T) (a : Answer V) (m : Hmonitor T V M) :
    SameShape m (hmonitorStart self a m).mon := (hmonitorStart_onlyControl self a m).shape

theorem hmonitorStop_shape (self : T) (a : Answer V) (m : Hmonitor T V M) :
    SameShape m (hmonitorStop self a m).mon := (hmonitorStop_onlyControl self a m).shape

end Cases
end Hmon
