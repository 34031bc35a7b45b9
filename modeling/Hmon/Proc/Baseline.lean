import Hmon.Proc.Basic

/-!
# What variations are measured from

* `Counters` : the record of a location, `Counters.update` : its update;
* `ProcEventset.slots` : the old and the current record, which the load and the differences are made of;
* `BaselineIsStart` : at each read that directly follows a start, the old record is the snapshot of the start;
* `baseline_iff` : **exactly when each of these starts finds the counters of the read before it**, which are zero
  before the first read: the start takes its snapshot in the record that the read swaps and updates.
-/

namespace Hmon
namespace Proc
open Lib

inductive Counters
  | stat (p : ProcStat)
  | cpu (p : ProcCpu)
  | numa (p : ProcNuma)
  deriving DecidableEq

def Counters.update (k : Kernel) : Counters → Counters
  | stat p => stat (procStatUpdate p k)
  | cpu p => cpu (procCpuUpdate p k)
  | numa p => numa (procNumaUpdate p k)

/-- What an update keeps is kept by the next one. -/
theorem Counters.update_update (k k' : Kernel) (c : Counters) : (c.update k).update k' = c.update k' := by
  cases c with
  | stat p => rfl
  | cpu p => rfl
  | numa p => rfl

/-- The record that a location begins with. -/
def ProcLocation.blank (pid : UInt32) : ProcLocation → Counters
  | pu osIndex => .cpu ⟨osIndex, 0, 0, 0, 0, 0, 0, 0⟩
  | numaNode logicalIndex => .numa ⟨logicalIndex, 0, 0⟩
  | machine | other => .stat ⟨pid, 'R'.toUInt8, 0, 0, 0, 0, 0, 0, 0, 0, 0, 0, 0, 0, 0, 0, 0, 0⟩

/-- A snapshot, as far as the record of the location keeps it. -/
def ProcLocation.snapshot (pid : UInt32) (location : ProcLocation) (k : Kernel) : Counters :=
  (location.blank pid).update k

/-- The last read of a run. -/
def lastRead : Option Kernel → List ProcCall → Option Kernel
  | last, [] => last
  | last, .start _ :: calls => lastRead last calls
  | _, .read k :: calls => lastRead (some k) calls

section
variable {V : Type}

/-- The old and the current record. -/
def ProcEventset.slots (e : ProcEventset V) : Option (Counters × Counters) :=
  match e.ps, e.pc, e.pn with
  | some s, _, _ => some (.stat s.old.fields, .stat s.current.fields)
  | none, some s, _ => some (.cpu s.old.fields, .cpu s.current.fields)
  | none, none, some s => some (.numa s.old.fields, .numa s.current.fields)
  | none, none, none => none

/-! ## One call -/

theorem slots_start (e : ProcEventset V) (k : Kernel) :
    (hmonitorEventsetStart e k).slots = e.slots.map fun s => (s.1.update k, s.2) := by
  obtain ⟨ps, pc, pm, pn, _, _, _, _, _⟩ := e
  cases ps with
  | some s => rfl
  | none =>
    cases pc with
    | some s => rfl
    | none =>
      cases pn with
      | some s => rfl
      | none => rfl

/-- The record that the start updated becomes the current one and is updated again. -/
theorem slots_rotate (e : ProcEventset V) (k : Kernel) :
    (rotate e k).slots = e.slots.map fun s => (s.2, s.1.update k) := by
  obtain ⟨ps, pc, pm, pn, _, _, _, _, _⟩ := e
  cases ps with
  | some s => rfl
  | none =>
    cases pc with
    | some s => rfl
    | none =>
      cases pn with
      | some s => rfl
      | none => rfl

theorem slots_addNamedEvent {e e' : ProcEventset V} {name : String}
    (h : hmonitorEventsetAddNamedEvent e name = some e') :
    e'.slots = e.slots := by
  unfold hmonitorEventsetAddNamedEvent at h
  split_ifs at h
  obtain ⟨_, -, rfl⟩ := Option.map_eq_some_iff.mp h
  rfl

theorem slots_addNamedEvents {names : List String} {e e' : ProcEventset V}
    (h : names.foldlM hmonitorEventsetAddNamedEvent e = some e') : e'.slots = e.slots := by
  induction names generalizing e with
  | nil =>
    cases h
    rfl
  | cons name names ih =>
    rw [List.foldlM_cons] at h
    obtain ⟨e₁, h₁, h⟩ := Option.bind_eq_some_iff.mp h
    exact (ih h).trans (slots_addNamedEvent h₁)

/-! ## The invariant of a run -/

/-- The current record is that of the last read, and an update leaves nothing of an earlier one. -/
structure Follow (pid : UInt32) (location : ProcLocation) (last : Option Kernel) (e : ProcEventset V) : Prop where
  slots : ∃ old, e.slots = some (old, last.elim (location.blank pid) (location.snapshot pid)) ∧
    ∀ k, old.update k = location.snapshot pid k

variable {pid : UInt32} {location : ProcLocation} {last : Option Kernel} {e e' : ProcEventset V}

theorem current_update (last : Option Kernel) (k : Kernel) :
    (last.elim (location.blank pid) (location.snapshot pid)).update k = location.snapshot pid k := by
  cases last with
  | none => rfl
  | some k' => exact Counters.update_update k' k _

theorem Follow.start (h : Follow pid location last e) (k : Kernel) :
    Follow pid location last (hmonitorEventsetStart e k) := by
  obtain ⟨old, hs, hold⟩ := h.slots
  refine ⟨old.update k, ?_, fun k' => (Counters.update_update k k' old).trans (hold k')⟩
  rw [slots_start, hs]
  rfl

/-- A read that directly follows a start measures from the read before, whatever the start found. -/
theorem rotate_start (h : Follow pid location last e) (k₁ k₂ : Kernel) :
    (rotate (hmonitorEventsetStart e k₁) k₂).slots =
      some (last.elim (location.blank pid) (location.snapshot pid), location.snapshot pid k₂) := by
  obtain ⟨old, hs, hold⟩ := (h.start k₁).slots
  rw [slots_rotate, hs, Option.map_some, hold]

variable [DoubleArith V]

theorem slots_init {heap : Heap V} {pid : UInt32} {location : ProcLocation} {e : ProcEventset V}
    (h : hmonitorEventsetInit heap pid location = some e) :
    e.slots = some (location.blank pid, location.blank pid) := by
  cases location with
  | pu i => cases h; rfl
  | numaNode i => cases h; rfl
  | machine => cases h; rfl
  | other => cases h

theorem follow_init {heap : Heap V} {names : List String} (h : hmonitorEventset heap pid location names = some e) :
    Follow pid location none e := by
  obtain ⟨e₀, h₀, h⟩ := Option.bind_eq_some_iff.mp h
  exact ⟨⟨_, (slots_addNamedEvents h).trans (slots_init h₀), fun _ => rfl⟩⟩

variable [DecidableEq V]

theorem slots_storeVariations {e e' : ProcEventset V} (h : storeVariations e = some e') : e'.slots = e.slots := by
  unfold storeVariations at h
  split at h
  · obtain ⟨_, -, rfl⟩ := Option.map_eq_some_iff.mp h
    rfl
  · cases h
    rfl
  · cases h
    rfl

theorem slots_read {e e' : ProcEventset V} {k : Kernel} (h : (procRuns V).next e (.read k) = some e') :
    e'.slots = e.slots.map fun s => (s.2, s.1.update k) := by
  obtain ⟨⟨_, _⟩, hr, rfl⟩ := Option.map_eq_some_iff.mp h
  obtain ⟨e₁, hs, he⟩ := Option.map_eq_some_iff.mp hr
  cases he
  rw [slots_storeVariations hs, slots_rotate]

/-! ## Runs -/

theorem Follow.read (h : Follow pid location last e) {k : Kernel} (hn : (procRuns V).next e (.read k) = some e') :
    Follow pid location (some k) e' := by
  obtain ⟨old, hs, hold⟩ := h.slots
  refine ⟨_, ?_, current_update last⟩
  rw [slots_read hn, hs]
  exact congrArg (fun c => some (_, c)) (hold k)

theorem Follow.exec (h : Follow pid location last e) {calls : List ProcCall}
    (he : (procRuns V).exec e calls = some e') : Follow pid location (lastRead last calls) e' := by
  induction calls generalizing e last with
  | nil =>
    cases he
    exact h
  | cons c calls ih =>
    obtain ⟨e₁, hn, hrest⟩ := Lts.exec_cons_eq_some.mp he
    cases c with
    | start k =>
      cases hn
      exact ih (h.start k) hrest
    | read k => exact ih (h.read hn) hrest

/-- At each read that directly follows a start, the old record is the snapshot of the start and the current record
that of the read. -/
def BaselineIsStart (pid : UInt32) (location : ProcLocation) (e : ProcEventset V) (calls : List ProcCall) : Prop :=
  ∀ pre k₁ k₂ post, calls = pre ++ .start k₁ :: .read k₂ :: post → ∀ e₁, (procRuns V).exec e pre = some e₁ →
    (rotate (hmonitorEventsetStart e₁ k₁) k₂).slots = some (location.snapshot pid k₁, location.snapshot pid k₂)

/-- The counters did not change between the last read and the start: they are those of the read, or zero. -/
def StartUnchanged (pid : UInt32) (location : ProcLocation) (e : ProcEventset V) (calls : List ProcCall) : Prop :=
  ∀ pre k₁ k₂ post, calls = pre ++ .start k₁ :: .read k₂ :: post → ((procRuns V).exec e pre).isSome →
    location.snapshot pid k₁ = (lastRead none pre).elim (location.blank pid) (location.snapshot pid)

/-- **Variations are measured from the last start exactly when every start that a read follows finds the counters of
the read before it**, on a processing unit, a NUMA node and the machine. -/
theorem baseline_iff {heap : Heap V} {names : List String} (h : hmonitorEventset heap pid location names = some e)
    (calls : List ProcCall) : BaselineIsStart pid location e calls ↔ StartUnchanged pid location e calls := by
  have hfollow := follow_init h
  constructor
  · intro hb pre k₁ k₂ post hc hsome
    obtain ⟨e₁, he⟩ := Option.isSome_iff_exists.mp hsome
    have hslots := hb pre k₁ k₂ post hc e₁ he
    rw [rotate_start (hfollow.exec he)] at hslots
    exact (Prod.mk.inj (Option.some.inj hslots)).1.symm
  · intro hu pre k₁ k₂ post hc e₁ he
    rw [rotate_start (hfollow.exec he), hu pre k₁ k₂ post hc (Option.isSome_iff_exists.mpr ⟨e₁, he⟩)]

/-- A kernel that shows no activity but `user` ticks on every processing unit. -/
def ticks (user : UInt64) : Kernel :=
  ⟨⟨0, 0, 0, 0, 0, 0, 0, 0, 0, 0, 0, 0, 0, 0, 0, 0, 0⟩, 0, fun _ => ⟨user, 0, 0, 0, 0, 0, 0⟩, fun _ => ⟨0, 0, 0⟩,
    fun _ => ⟨0, 0⟩⟩

/-- A start before the first tick of its processing unit, and a second one at the ticks of the read before it. -/
theorem baseline_first_tick : ∃ e : ProcEventset ℚ,
    hmonitorEventset ⟨fun _ _ => 0, 0⟩ 1 (.pu 0) ["cpuload"] = some e ∧
      BaselineIsStart 1 (.pu 0) e [.start (ticks 0), .read (ticks 5), .start (ticks 5), .read (ticks 9)] := by
  have hsome : (hmonitorEventset (⟨fun _ _ => 0, 0⟩ : Heap ℚ) 1 (.pu 0) ["cpuload"]).isSome := by decide
  obtain ⟨e, he⟩ := Option.isSome_iff_exists.mp hsome
  refine ⟨e, he, (baseline_iff he _).mpr fun pre k₁ k₂ post hc _ => ?_⟩
  match pre with
  | [] =>
    cases hc
    rfl
  | [_] => cases hc
  | [_, _] =>
    cases hc
    rfl
  | [_, _, _] => cases hc
  | [_, _, _, _] => cases hc
  | _ :: _ :: _ :: _ :: _ :: _ => cases hc

/-- The first start finds 3 ticks, but the read after it measures from 0. -/
theorem baseline_zero : ¬ ∀ (heap : Heap ℚ) (pid : UInt32) (location : ProcLocation) (names : List String)
    (e : ProcEventset ℚ) (calls : List ProcCall), hmonitorEventset heap pid location names = some e →
      BaselineIsStart pid location e calls := by
  intro h
  have hslots := h ⟨fun _ _ => 0, 0⟩ 1 (.pu 0) ["cpuload"] _ [.start (ticks 3), .read (ticks 5)] rfl [] _ _ [] rfl _ rfl
  exact absurd (congrArg (Option.map Prod.fst) hslots) (by decide)

end
end Proc
end Hmon
