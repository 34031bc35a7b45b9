import Hmon.Proc.Baseline

/-!
# What the events of `/proc` report

* `quantity` : what the name of an event stands for, from what the kernel shows at the read before and at this one;
* `Reports` : the values of every read of a run are the quantities of their names;
* `reports_iff` : **exactly when only the load and the page faults are asked for**: the other events are cells of arrays
  that nothing fills;
* `repaired_reports` : with the casts and `proc_cpu_diff` called, every event reports its quantity.
-/

namespace Hmon
namespace Proc
open Lib
open Proc.DoubleArith (ofULong)

variable {V : Type}

/-! ## Eventsets of a location -/

/-- The names that the plugin accepts at a location. -/
def Accepted (location : ProcLocation) (names : List String) : Prop :=
  location ≠ .other ∧ names.length ≤ maxEvents ∧ ∀ name ∈ names, (location.event name).isSome

/-- The events that are computed. -/
def computed : List String := ["cpuload", "minor_faults", "major_faults"]

/-- The records that the eventset of a location has. -/
def Shaped (e : ProcEventset V) : Prop :=
  match e.location with
  | .pu _ => e.ps = none ∧ e.pc.isSome
  | .numaNode i => e.ps = none ∧ e.pc = none ∧ (∃ r, e.pm = some r ∧ r.fields.node = i) ∧ e.pn.isSome
  | .machine => e.ps.isSome
  | .other => False

/-- The eventset has the records of its location and the addresses of its names. -/
structure Built (location : ProcLocation) (names : List String) (e : ProcEventset V) : Prop where
  place : e.location = location
  shaped : Shaped e
  events : e.events.map some = names.map location.event

variable {location : ProcLocation} {names : List String} {e e' : ProcEventset V} {heap : Heap V} {pid : UInt32}

theorem addNamedEvents_eq (h : names.foldlM hmonitorEventsetAddNamedEvent e = some e') :
    ∃ events, e' = { e with events := e.events ++ events } ∧ events.map some = names.map e.location.event := by
  induction names generalizing e with
  | nil =>
    cases h
    exact ⟨[], by rw [List.append_nil], rfl⟩
  | cons name names ih =>
    rw [List.foldlM_cons] at h
    obtain ⟨e₁, h₁, h⟩ := Option.bind_eq_some_iff.mp h
    unfold hmonitorEventsetAddNamedEvent at h₁
    split_ifs at h₁
    obtain ⟨event, hev, rfl⟩ := Option.map_eq_some_iff.mp h₁
    obtain ⟨events, rfl, hevents⟩ := ih h
    refine ⟨event :: events, ?_, ?_⟩
    · rw [List.append_assoc]
      rfl
    · rw [List.map_cons, List.map_cons, hev, hevents]

/-- The plugin accepts the names that it knows, up to sixteen. -/
theorem addNamedEvents_isSome (hlen : e.events.length + names.length ≤ maxEvents)
    (hnames : ∀ name ∈ names, (e.location.event name).isSome) :
    (names.foldlM hmonitorEventsetAddNamedEvent e).isSome := by
  induction names generalizing e with
  | nil => rfl
  | cons name names ih =>
    obtain ⟨event, hev⟩ := Option.isSome_iff_exists.mp (hnames name List.mem_cons_self)
    rw [List.length_cons] at hlen
    have hadd : hmonitorEventsetAddNamedEvent e name = some { e with events := e.events ++ [event] } := by
      unfold hmonitorEventsetAddNamedEvent
      rw [if_neg (by omega), hev]
      rfl
    rw [List.foldlM_cons, hadd]
    refine ih (e := { e with events := e.events ++ [event] }) ?_
      fun name' h' => hnames name' (List.mem_cons_of_mem _ h')
    rw [List.length_append, List.length_singleton]
    omega

/-- The values of addresses are the quantities of names exactly when they are name by name. -/
theorem values_iff {names : List String} {events : List Event} {address : String → Option Event} {q : String → Option V}
    {v : Event → V} (h : events.map some = names.map address) :
    (events.map v).map some = names.map q ↔ ∀ name ∈ names, ∀ ev, address name = some ev → q name = some (v ev) := by
  induction names generalizing events with
  | nil =>
    cases events with
    | nil => simp
    | cons ev events => cases h
  | cons name names ih =>
    cases events with
    | nil => cases h
    | cons ev events =>
      obtain ⟨hev, hrest⟩ := List.cons.inj h
      rw [List.map_cons, List.map_cons, List.map_cons, List.cons.injEq, ih hrest, List.forall_mem_cons, ← hev]
      simp only [Option.some.injEq, forall_eq']
      exact and_congr_left fun _ => eq_comm

theorem event_mem {name : String} {ev : Event} (h : location.event name = some ev) : (name, ev) ∈ location.events := by
  obtain ⟨l₁, l₂, hl, -⟩ := List.lookup_eq_some_iff.mp h
  rw [hl]
  exact List.mem_append_right _ List.mem_cons_self

/-- The addresses of what a read computes. -/
theorem computed_event {name : String} {ev : Event} (hn : name ∈ computed) (h : location.event name = some ev) :
    ev = .cpuLoad ∨ ev = .minFlt ∨ ev = .majFlt := by
  simp only [computed, List.mem_cons, List.not_mem_nil, or_false] at hn
  cases location with
  | pu i =>
    rcases hn with rfl | rfl | rfl
    · cases h
      exact .inl rfl
    · cases h
    · cases h
  | numaNode i => rcases hn with rfl | rfl | rfl <;> cases h
  | machine =>
    rcases hn with rfl | rfl | rfl
    · cases h
      exact .inl rfl
    · cases h
      exact .inr (.inl rfl)
    · cases h
      exact .inr (.inr rfl)
  | other => rcases hn with rfl | rfl | rfl <;> cases h

/-! ## A run keeps the shape -/

theorem memUpdate_node (r : Rec ProcMem V) (k : Kernel) : (r.update procMemUpdate k).fields.node = r.fields.node := rfl

theorem Built.start (h : Built location names e) (k : Kernel) : Built location names (hmonitorEventsetStart e k) := by
  refine ⟨h.place, ?_, h.events⟩
  have hs := h.shaped
  unfold Shaped at hs ⊢
  cases hl : e.location with
  | pu i => simpa [hmonitorEventsetStart, hl] using hs
  | numaNode i => simpa [hmonitorEventsetStart, hl, memUpdate_node] using hs
  | machine => simpa [hmonitorEventsetStart, hl] using hs
  | other => simp [hl] at hs

theorem Built.rotate (h : Built location names e) (k : Kernel) : Built location names (rotate e k) := by
  refine ⟨h.place, ?_, h.events⟩
  have hs := h.shaped
  unfold Shaped at hs ⊢
  cases hl : e.location with
  | pu i => simpa [Proc.rotate, hl] using hs
  | numaNode i => simpa [Proc.rotate, hl, memUpdate_node] using hs
  | machine => simpa [Proc.rotate, hl] using hs
  | other => simp [hl] at hs

variable [DoubleArith V]

theorem built_of_eventset (h : hmonitorEventset heap pid location names = some e) : Built location names e := by
  obtain ⟨e₀, h₀, h⟩ := Option.bind_eq_some_iff.mp h
  obtain ⟨events, rfl, hevents⟩ := addNamedEvents_eq h
  cases location with
  | pu i => cases h₀; exact ⟨rfl, ⟨rfl, rfl⟩, hevents⟩
  | numaNode i => cases h₀; exact ⟨rfl, ⟨rfl, rfl, ⟨_, rfl, rfl⟩, rfl⟩, hevents⟩
  | machine => cases h₀; exact ⟨rfl, rfl, hevents⟩
  | other => cases h₀

theorem eventset_of_accepted (heap : Heap V) (pid : UInt32) (h : Accepted location names) :
    (hmonitorEventset heap pid location names).isSome := by
  obtain ⟨hother, hlen, hnames⟩ := h
  have hlen' : ([] : List Event).length + names.length ≤ maxEvents := by rwa [List.length_nil, Nat.zero_add]
  unfold hmonitorEventset
  cases location with
  | pu i => exact addNamedEvents_isSome hlen' hnames
  | numaNode i => exact addNamedEvents_isSome hlen' hnames
  | machine => exact addNamedEvents_isSome hlen' hnames
  | other => exact absurd rfl hother

/-! ## What the names stand for -/

/-- What the kernel shows before the first read, for the records: no activity. -/
def Kernel.blank (pid : UInt32) : Kernel :=
  ⟨⟨pid, 'R'.toUInt8, 0, 0, 0, 0, 0, 0, 0, 0, 0, 0, 0, 0, 0, 0, 0⟩, 0, fun _ => ⟨0, 0, 0, 0, 0, 0, 0⟩,
    fun _ => ⟨0, 0, 0⟩, fun _ => ⟨0, 0⟩⟩

/-- The record of the process that a snapshot fills. -/
def statRecord (pid : UInt32) (k : Kernel) : ProcStat := procStatUpdate (newProcStat (V := ℚ) pid fun _ => 0).fields k

/-- The record of a processing unit that a snapshot fills. -/
def cpuRecord (cpu : Int) (k : Kernel) : ProcCpu := procCpuUpdate (newProcCpu (V := ℚ) cpu fun _ => 0).fields k

/-- The quantities of the machine, from the snapshots `old` and `new`. The record keeps 32 bits of `rss`. -/
def statQuantity (pid : UInt32) (old new : Kernel) : String → Option V
  | "cpuload" => (procStatCpuload (statRecord pid old) (statRecord pid new)).map ofULong
  | "minor_faults" => some (ofULong ((new.stat.minFlt - old.stat.minFlt) + (new.stat.cminFlt - old.stat.cminFlt)))
  | "major_faults" => some (ofULong ((new.stat.majFlt - old.stat.majFlt) + (new.stat.cmajFlt - old.stat.cmajFlt)))
  | "vsize" => some (ofULong (if new.stat.vsize > old.stat.vsize then new.stat.vsize else old.stat.vsize))
  | "rss" => some (ofULong (if new.stat.rss.toUInt32 > old.stat.rss.toUInt32 then new.stat.rss.toUInt32
      else old.stat.rss.toUInt32).toUInt64)
  | "blkio_ticks" => some (ofULong (new.stat.blkioTicks - old.stat.blkioTicks))
  | _ => none

/-- The quantities of a processing unit. -/
def cpuQuantity [DecidableEq V] (cpu : Int) (old new : Kernel) : String → Option V
  | "cpuload" => some (procCpuLoad (cpuRecord cpu old) (cpuRecord cpu new))
  | "iowait" => some (ofULong ((new.cpu cpu).iowait - (old.cpu cpu).iowait))
  | "irq" => some (ofULong ((new.cpu cpu).irq - (old.cpu cpu).irq))
  | "softirq" => some (ofULong ((new.cpu cpu).softirq - (old.cpu cpu).softirq))
  | _ => none

/-- The quantities of a NUMA node. -/
def nodeQuantity (node : Int) (old new : Kernel) : String → Option V
  | "memtotal" => some (ofULong (new.mem node).total)
  | "memfree" => some (ofULong (new.mem node).free)
  | "memused" => some (ofULong (new.mem node).used)
  | "local_hit" => some (ofULong ((new.numa node).localHit - (old.numa node).localHit))
  | "remote_hit" => some (ofULong ((new.numa node).remoteHit - (old.numa node).remoteHit))
  | _ => none

/-- The quantity of a name at a location, from the snapshots of two reads. -/
def quantity [DecidableEq V] (pid : UInt32) (location : ProcLocation) (old new : Kernel) : String → Option V :=
  match location with
  | .pu osIndex => cpuQuantity osIndex old new
  | .numaNode logicalIndex => nodeQuantity logicalIndex old new
  | .machine => statQuantity pid old new
  | .other => fun _ => none

/-- What the kernel showed at the last read of the calls. -/
def lastShown (pid : UInt32) (calls : List ProcCall) : Kernel := (lastRead none calls).getD (Kernel.blank pid)

/-- Each read of a run writes the quantities of the names, from what the kernel shows at the read before and at this
one, and it returns when the clock advanced between them. -/
def Reports [DecidableEq V] (pid : UInt32) (location : ProcLocation) (names : List String) (e : ProcEventset V)
    (calls : List ProcCall) : Prop :=
  ∀ pre k post, calls = pre ++ .read k :: post → ∀ e₁, (procRuns V).exec e pre = some e₁ →
    (∀ vs e', hmonitorEventsetRead e₁ k = some (vs, e') →
      vs.map some = names.map (quantity pid location (lastShown pid pre) k)) ∧
    (k.clock ≠ (lastShown pid pre).clock → (hmonitorEventsetRead e₁ k).isSome)

theorem snapshot_blank : location.snapshot pid (Kernel.blank pid) = location.blank pid := by
  cases location with
  | pu i => rfl
  | numaNode i => rfl
  | machine => rfl
  | other => rfl

/-! ## One read -/

variable {k : Kernel} {last : Option Kernel} {name : String} {ev : Event}

omit [DoubleArith V] in
/-- After the rotation the two records are those of the last read and of this one. -/
theorem Follow.rotate (h : Follow pid location last e) (k : Kernel) : (Proc.rotate e k).slots =
    some (location.snapshot pid (last.getD (Kernel.blank pid)), location.snapshot pid k) := by
  obtain ⟨old, hs, hold⟩ := h.slots
  rw [slots_rotate, hs, Option.map_some, hold]
  cases last with
  | none => rw [Option.getD_none, snapshot_blank]; rfl
  | some k' => rfl

variable [DecidableEq V]

/-- What a read stores besides the rotation. -/
theorem storeVariations_eq (h : storeVariations e = some e') :
    e' = { e with cpuLoad := e'.cpuLoad, minFlt := e'.minFlt, majFlt := e'.majFlt } := by
  unfold storeVariations at h
  split at h
  · obtain ⟨_, -, rfl⟩ := Option.map_eq_some_iff.mp h
    rfl
  · cases h
    rfl
  · cases h
    rfl

/-- The load and the page faults are those of the snapshots. -/
theorem value_computed (hb : Built location names e) (hf : Follow pid location last e)
    (h : storeVariations (Proc.rotate e k) = some e') (hn : name ∈ computed) (hev : location.event name = some ev) :
    quantity pid location (last.getD (Kernel.blank pid)) k name = some (e'.value ev) := by
  obtain ⟨rfl, hs, -⟩ := hb
  have hrot := hf.rotate k
  generalize last.getD (Kernel.blank pid) = old at hrot ⊢
  obtain ⟨ps, pc, pm, pn, load, min, maj, evs, location⟩ := e
  cases location with
  | pu i =>
    obtain ⟨hps, hpc⟩ := hs
    obtain ⟨s, rfl⟩ := Option.isSome_iff_exists.mp hpc
    subst hps
    cases h
    obtain ⟨hold, hnew⟩ := Prod.mk.inj (Option.some.inj hrot)
    simp only [computed, List.mem_cons, List.not_mem_nil, or_false] at hn
    rcases hn with rfl | rfl | rfl
    · cases hev
      exact congrArg some (congrArg₂ procCpuLoad (Counters.cpu.inj hold).symm (Counters.cpu.inj hnew).symm)
    · cases hev
    · cases hev
  | numaNode i =>
    simp only [computed, List.mem_cons, List.not_mem_nil, or_false] at hn
    rcases hn with rfl | rfl | rfl
    · cases hev
    · cases hev
    · cases hev
  | machine =>
    obtain ⟨s, rfl⟩ := Option.isSome_iff_exists.mp hs
    obtain ⟨u, hu, rfl⟩ := Option.map_eq_some_iff.mp h
    obtain ⟨hold, hnew⟩ := Prod.mk.inj (Option.some.inj hrot)
    have hold : s.current.fields = statRecord pid old := Counters.stat.inj hold
    have hnew : procStatUpdate s.old.fields k = statRecord pid k := Counters.stat.inj hnew
    have hu : procStatCpuload s.current.fields (procStatUpdate s.old.fields k) = some u := hu
    have hdiff (field child : ProcStat → UInt64) :
        (field (procStatUpdate s.old.fields k) - field s.current.fields) +
          (child (procStatUpdate s.old.fields k) - child s.current.fields) =
        (field (statRecord pid k) - field (statRecord pid old)) +
          (child (statRecord pid k) - child (statRecord pid old)) := by
      rw [hold, hnew]
    simp only [computed, List.mem_cons, List.not_mem_nil, or_false] at hn
    rcases hn with rfl | rfl | rfl
    · cases hev
      rw [hold, hnew] at hu
      exact congrArg (Option.map ofULong) hu
    · cases hev
      exact congrArg (fun d => some (ofULong d : V)) (hdiff ProcStat.minFlt ProcStat.cminFlt).symm
    · cases hev
      exact congrArg (fun d => some (ofULong d : V)) (hdiff ProcStat.majFlt ProcStat.cmajFlt).symm
  | other => exact hs.elim

theorem procStatCpuload_isSome {old new : ProcStat} (h : new.timestamp ≠ old.timestamp) :
    (procStatCpuload old new).isSome := by
  have hne : new.timestamp - old.timestamp ≠ 0 := fun h0 => by
    have hadd := UInt64.sub_add_cancel new.timestamp old.timestamp
    rw [h0, UInt64.zero_add] at hadd
    exact h hadd.symm
  unfold procStatCpuload
  simp only [if_neg hne]
  split_ifs
  · rfl
  · rfl

/-- A read returns when the clock advanced since the last one. -/
theorem read_isSome (hb : Built location names e) (hf : Follow pid location last e)
    (ht : k.clock ≠ (last.getD (Kernel.blank pid)).clock) : (hmonitorEventsetRead e k).isSome := by
  obtain ⟨rfl, hs, -⟩ := hb
  have hrot := hf.rotate k
  generalize last.getD (Kernel.blank pid) = old at hrot ht
  obtain ⟨ps, pc, pm, pn, load, min, maj, evs, location⟩ := e
  unfold hmonitorEventsetRead
  rw [Option.isSome_map]
  cases location with
  | pu i =>
    obtain ⟨hps, hpc⟩ := hs
    obtain ⟨s, rfl⟩ := Option.isSome_iff_exists.mp hpc
    subst hps
    rfl
  | numaNode i => rfl
  | machine =>
    obtain ⟨s, rfl⟩ := Option.isSome_iff_exists.mp hs
    obtain ⟨hold, -⟩ := Prod.mk.inj (Option.some.inj hrot)
    have hold : s.current.fields = statRecord pid old := Counters.stat.inj hold
    have hload : (procStatCpuload s.current.fields (procStatUpdate s.old.fields k)).isSome :=
      procStatCpuload_isSome (by rw [hold]; exact ht)
    obtain ⟨u, hu⟩ := Option.isSome_iff_exists.mp hload
    exact Option.isSome_map.trans (by rw [Option.isSome_iff_exists]; exact ⟨u, hu⟩)
  | other => exact hs.elim

theorem Built.read (h : Built location names e) {vs : List V} (hr : hmonitorEventsetRead e k = some (vs, e')) :
    Built location names e' ∧ vs = e'.events.map e'.value ∧ storeVariations (Proc.rotate e k) = some e' := by
  obtain ⟨e₁, hs, he⟩ := Option.map_eq_some_iff.mp hr
  cases he
  have hrot := h.rotate k
  refine ⟨?_, rfl, hs⟩
  rw [storeVariations_eq hs]
  exact ⟨hrot.place, hrot.shaped, hrot.events⟩

/-! ## Runs -/

theorem Built.exec (h : Built location names e) {calls : List ProcCall} (he : (procRuns V).exec e calls = some e') :
    Built location names e' := by
  induction calls generalizing e with
  | nil =>
    cases he
    exact h
  | cons c calls ih =>
    obtain ⟨e₁, hn, hrest⟩ := Lts.exec_cons_eq_some.mp he
    cases c with
    | start k =>
      cases hn
      exact ih (h.start k) hrest
    | read k =>
      obtain ⟨⟨vs, e₂⟩, hr, rfl⟩ := Option.map_eq_some_iff.mp hn
      exact ih (h.read hr).1 hrest

/-- With computed events only, every read of a run reports. -/
theorem reports_of_computed (h : Built location names e) (hf : Follow pid location none e)
    (hn : ∀ name ∈ names, name ∈ computed) (calls : List ProcCall) : Reports pid location names e calls := by
  rintro pre k post - e₁ he
  have hb := h.exec he
  have hlast := hf.exec he
  refine ⟨fun vs e' hr => ?_, fun hclock => read_isSome hb hlast hclock⟩
  obtain ⟨hb', rfl, hs⟩ := hb.read hr
  exact (values_iff hb'.events).mpr fun name hname ev hev => value_computed hb hlast hs (hn name hname) hev

/-- A kernel that shows zero everywhere, after the first tick of the clock. -/
def still : Kernel :=
  ⟨⟨0, 0, 0, 0, 0, 0, 0, 0, 0, 0, 0, 0, 0, 0, 0, 0, 0⟩, 1, fun _ => ⟨0, 0, 0, 0, 0, 0, 0⟩, fun _ => ⟨0, 0, 0⟩,
    fun _ => ⟨0, 0⟩⟩

/-- An event that is not computed shows what the memory held, here 1, where nothing happened. -/
theorem unfilled (h : hmonitorEventset (⟨fun _ _ => ofULong 1, 0⟩ : Heap V) pid location names = some e)
    (hs : storeVariations (Proc.rotate e still) = some e') (hn : name ∉ computed)
    (hev : location.event name = some ev) :
    quantity pid location (Kernel.blank pid) still name = some (ofULong 0 : V) ∧ e'.value ev = ofULong 1 := by
  have hmem := event_mem hev
  have zero {u : UInt64} (hu : u = 0) : some (ofULong u : V) = some (ofULong 0) :=
    congrArg (fun u => some (ofULong u)) hu
  obtain ⟨e₀, h₀, h⟩ := Option.bind_eq_some_iff.mp h
  obtain ⟨events, rfl, -⟩ := addNamedEvents_eq h
  cases location with
  | pu i =>
    cases h₀
    cases hs
    simp only [ProcLocation.events, List.mem_cons, List.not_mem_nil, or_false, Prod.mk.injEq] at hmem
    rcases hmem with ⟨rfl, rfl⟩ | ⟨rfl, rfl⟩ | ⟨rfl, rfl⟩ | ⟨rfl, rfl⟩
    · exact absurd (by decide) hn
    · exact ⟨zero (UInt64.sub_self 0), rfl⟩
    · exact ⟨zero (UInt64.sub_self 0), rfl⟩
    · exact ⟨zero (UInt64.sub_self 0), rfl⟩
  | numaNode i =>
    cases h₀
    cases hs
    simp only [ProcLocation.events, List.mem_cons, List.not_mem_nil, or_false, Prod.mk.injEq] at hmem
    rcases hmem with ⟨rfl, rfl⟩ | ⟨rfl, rfl⟩ | ⟨rfl, rfl⟩ | ⟨rfl, rfl⟩ | ⟨rfl, rfl⟩
    · exact ⟨rfl, rfl⟩
    · exact ⟨rfl, rfl⟩
    · exact ⟨rfl, rfl⟩
    · exact ⟨zero (UInt64.sub_self 0), rfl⟩
    · exact ⟨zero (UInt64.sub_self 0), rfl⟩
  | machine =>
    cases h₀
    obtain ⟨u, -, rfl⟩ := Option.map_eq_some_iff.mp hs
    simp only [ProcLocation.events, List.mem_cons, List.not_mem_nil, or_false, Prod.mk.injEq] at hmem
    rcases hmem with ⟨rfl, rfl⟩ | ⟨rfl, rfl⟩ | ⟨rfl, rfl⟩ | ⟨rfl, rfl⟩ | ⟨rfl, rfl⟩ | ⟨rfl, rfl⟩
    · exact absurd (by decide) hn
    · exact absurd (by decide) hn
    · exact absurd (by decide) hn
    · exact ⟨zero (ite_self 0), rfl⟩
    · exact ⟨zero (congrArg UInt32.toUInt64 (ite_self 0)), rfl⟩
    · exact ⟨zero (UInt64.sub_self 0), rfl⟩
  | other => cases h₀

/-- A name that is not computed spoils the first read. -/
theorem not_reports (pid : UInt32) (h : Accepted location names) (hname : name ∈ names) (hn : name ∉ computed) :
    ¬ ∀ (heap : Heap V) e, hmonitorEventset heap pid location names = some e →
      ∀ calls, Reports pid location names e calls := by
  intro hall
  obtain ⟨e, he⟩ := Option.isSome_iff_exists.mp (eventset_of_accepted (⟨fun _ _ => ofULong 1, 0⟩ : Heap V) pid h)
  obtain ⟨ev, hev⟩ := Option.isSome_iff_exists.mp (h.2.2 name hname)
  obtain ⟨hvalues, hreturns⟩ := hall _ e he [.read still] [] still [] rfl e rfl
  have hclock : still.clock ≠ (lastShown pid []).clock := by
    show (1 : UInt64) ≠ 0
    decide
  obtain ⟨⟨vs, e'⟩, hr⟩ := Option.isSome_iff_exists.mp (hreturns hclock)
  obtain ⟨hb, rfl, hs⟩ := (built_of_eventset he).read hr
  have hq := (values_iff hb.events).mp (hvalues _ e' hr) name hname ev hev
  obtain ⟨hzero, hone⟩ := unfilled he hs hn hev
  rw [hone, lastShown, lastRead, Option.getD_none, hzero, Option.some.injEq] at hq
  exact DoubleArith.ofULong_zero_ne_one hq

/-- **After every read of every run the values are the quantities of their names exactly when no name but `cpuload`,
`minor_faults` and `major_faults` is given.** -/
theorem reports_iff (pid : UInt32) (h : Accepted location names) :
    (∀ (heap : Heap V) e, hmonitorEventset heap pid location names = some e →
      ∀ calls, Reports pid location names e calls) ↔ ∀ name ∈ names, name ∈ computed := by
  constructor
  · intro hall name hname
    by_contra hn
    exact not_reports pid h hname hn hall
  · intro hn heap e he calls
    exact reports_of_computed (built_of_eventset he) (follow_init he) hn calls

/-- The load and the page faults of the machine, at two reads. -/
theorem reports_cpuload : ∃ e : ProcEventset ℚ,
    hmonitorEventset ⟨fun _ _ => 7, 0⟩ 1 .machine ["major_faults", "cpuload", "minor_faults"] = some e ∧
      Reports 1 .machine ["major_faults", "cpuload", "minor_faults"] e
        [.start (ticks 2), .read { ticks 5 with clock := 10 }, .read { ticks 9 with clock := 30 }] := by
  have hsome : (hmonitorEventset (⟨fun _ _ => 7, 0⟩ : Heap ℚ) 1 .machine
      ["major_faults", "cpuload", "minor_faults"]).isSome := by decide
  obtain ⟨e, he⟩ := Option.isSome_iff_exists.mp hsome
  exact ⟨e, he, (reports_iff 1 ⟨by decide, by decide, by decide⟩).mpr (by decide) _ e he _⟩

/-- The `iowait` of a processing unit is whatever `malloc` left in its cell. -/
theorem iowait_unfilled : ¬ ∀ (pid : UInt32) (location : ProcLocation) (names : List String), Accepted location names →
    ∀ (heap : Heap ℚ) e, hmonitorEventset heap pid location names = some e →
      ∀ calls, Reports pid location names e calls := by
  intro h
  have hacc : Accepted (.pu 0) ["iowait"] := ⟨by decide, by decide, by decide⟩
  exact not_reports 1 hacc List.mem_cons_self (by decide) (h 1 _ _ hacc)

/-! ## What is missing -/

/-- The calls that the read leaves out: `proc_cpu_diff`, and the casts of the records that events point into. -/
def repaired (e : ProcEventset V) : ProcEventset V :=
  { e with
    ps := e.ps.map fun s => { s with diff := ⟨s.diff.fields, fun i => (procStatCastDouble s.diff.fields).getD i 0⟩ }
    pc := e.pc.map fun s =>
      let diff := procCpuDiff s.current.fields s.old.fields
      { s with diff := ⟨diff, fun i => (procCpuCastDouble diff).getD i 0⟩ }
    pm := e.pm.map fun r => ⟨r.fields, fun i => (procMemCastDouble r.fields).getD i 0⟩
    pn := e.pn.map fun s => { s with diff := ⟨s.diff.fields, fun i => (procNumaCastDouble s.diff.fields).getD i 0⟩ } }

/-- A cell of `pc[2]->values`. -/
theorem repaired_cpu {i : Nat} {old : Kernel} {s : Slots ProcCpu V} (hs : e.pc = some s)
    (hold : s.old.fields = cpuRecord i old) (hnew : s.current.fields = cpuRecord i k)
    (hmem : (name, ev) ∈ (ProcLocation.pu i).events) (hn : name ∉ computed) :
    cpuQuantity i old k name = some ((repaired e).value ev) := by
  obtain ⟨ps, pc, pm, pn, load, min, maj, evs, location⟩ := e
  subst hs
  have hdiff : procCpuDiff s.current.fields s.old.fields = procCpuDiff (cpuRecord i k) (cpuRecord i old) := by
    rw [hold, hnew]
  simp only [ProcLocation.events, List.mem_cons, List.not_mem_nil, or_false, Prod.mk.injEq] at hmem
  rcases hmem with ⟨rfl, rfl⟩ | ⟨rfl, rfl⟩ | ⟨rfl, rfl⟩ | ⟨rfl, rfl⟩
  · exact absurd (by decide) hn
  · exact congrArg (fun d => some (ofULong d.iowait : V)) hdiff.symm
  · exact congrArg (fun d => some (ofULong d.irq : V)) hdiff.symm
  · exact congrArg (fun d => some (ofULong d.softirq : V)) hdiff.symm

omit [DecidableEq V] in
/-- A cell of `pm->values` or `pn[2]->values`. -/
theorem repaired_node {i : Nat} {old : Kernel} {r : Rec ProcMem V} {s : Slots ProcNuma V} (hr : e.pm = some r)
    (hs : e.pn = some s) (hfile : r.fields = ⟨i, (k.mem i).total, (k.mem i).free, (k.mem i).used⟩)
    (hdiff : s.diff.fields = procNumaDiff (procNumaUpdate ⟨i, 0, 0⟩ k) (procNumaUpdate ⟨i, 0, 0⟩ old))
    (hmem : (name, ev) ∈ (ProcLocation.numaNode i).events) :
    nodeQuantity i old k name = some ((repaired e).value ev) := by
  obtain ⟨ps, pc, pm, pn, load, min, maj, evs, location⟩ := e
  subst hr hs
  simp only [ProcLocation.events, List.mem_cons, List.not_mem_nil, or_false, Prod.mk.injEq] at hmem
  rcases hmem with ⟨rfl, rfl⟩ | ⟨rfl, rfl⟩ | ⟨rfl, rfl⟩ | ⟨rfl, rfl⟩ | ⟨rfl, rfl⟩
  · exact congrArg (fun r => some (ofULong r.total : V)) hfile.symm
  · exact congrArg (fun r => some (ofULong r.used : V)) hfile.symm
  · exact congrArg (fun r => some (ofULong r.free : V)) hfile.symm
  · exact congrArg (fun d => some (ofULong d.localHit : V)) hdiff.symm
  · exact congrArg (fun d => some (ofULong d.remoteHit : V)) hdiff.symm

omit [DecidableEq V] in
/-- A cell of `ps[2]->values`. -/
theorem repaired_stat {old : Kernel} {res : ProcStat} {s : Slots ProcStat V} (hs : e.ps = some s)
    (hdiff : s.diff.fields = procStatDiff res (statRecord pid k) (statRecord pid old))
    (hmem : (name, ev) ∈ ProcLocation.machine.events) (hn : name ∉ computed) :
    statQuantity pid old k name = some ((repaired e).value ev) := by
  obtain ⟨ps, pc, pm, pn, load, min, maj, evs, location⟩ := e
  subst hs
  simp only [ProcLocation.events, List.mem_cons, List.not_mem_nil, or_false, Prod.mk.injEq] at hmem
  rcases hmem with ⟨rfl, rfl⟩ | ⟨rfl, rfl⟩ | ⟨rfl, rfl⟩ | ⟨rfl, rfl⟩ | ⟨rfl, rfl⟩ | ⟨rfl, rfl⟩
  · exact absurd (by decide) hn
  · exact absurd (by decide) hn
  · exact absurd (by decide) hn
  · exact congrArg (fun d => some (ofULong d.vsize : V)) hdiff.symm
  · exact congrArg (fun d => some (ofULong d.rss.toUInt64 : V)) hdiff.symm
  · exact congrArg (fun d => some (ofULong d.blkioTicks : V)) hdiff.symm

/-- **With these calls every event reports its quantity at each read of a run.** -/
theorem repaired_reports (hb : Built location names e) (hf : Follow pid location last e)
    (h : storeVariations (Proc.rotate e k) = some e') (hev : location.event name = some ev) :
    quantity pid location (last.getD (Kernel.blank pid)) k name = some ((repaired e').value ev) := by
  have hmem := event_mem hev
  by_cases hn : name ∈ computed
  · -- the missing calls do not touch what the read stores itself
    rw [value_computed hb hf h hn hev]
    have hrange : ev = .cpuLoad ∨ ev = .minFlt ∨ ev = .majFlt := computed_event hn hev
    rcases hrange with rfl | rfl | rfl
    all_goals rfl
  obtain ⟨rfl, hs, -⟩ := hb
  have hrot := hf.rotate k
  generalize last.getD (Kernel.blank pid) = old at hrot ⊢
  obtain ⟨ps, pc, pm, pn, load, min, maj, evs, location⟩ := e
  cases location with
  | pu i =>
    obtain ⟨hps, hpc⟩ := hs
    obtain ⟨s, rfl⟩ := Option.isSome_iff_exists.mp hpc
    subst hps
    cases h
    obtain ⟨hold, hnew⟩ := Prod.mk.inj (Option.some.inj hrot)
    exact repaired_cpu rfl (Counters.cpu.inj hold) (Counters.cpu.inj hnew) hmem hn
  | numaNode i =>
    obtain ⟨hps, hpc, ⟨m, hpm, hnode⟩, hpn⟩ := hs
    obtain ⟨s, rfl⟩ := Option.isSome_iff_exists.mp hpn
    subst hps hpc hpm
    cases h
    obtain ⟨hold, hnew⟩ := Prod.mk.inj (Option.some.inj hrot)
    have hfile : procMemUpdate m.fields k = ⟨i, (k.mem i).total, (k.mem i).free, (k.mem i).used⟩ := by
      have hpos : (0 : Int) ≤ i := Int.natCast_nonneg i
      simp only [procMemUpdate, hnode, if_pos hpos]
    exact repaired_node rfl rfl hfile (congrArg₂ procNumaDiff (Counters.numa.inj hnew) (Counters.numa.inj hold)) hmem
  | machine =>
    obtain ⟨s, rfl⟩ := Option.isSome_iff_exists.mp hs
    obtain ⟨u, -, rfl⟩ := Option.map_eq_some_iff.mp h
    obtain ⟨hold, hnew⟩ := Prod.mk.inj (Option.some.inj hrot)
    have hdiff := congrArg₂ (procStatDiff s.diff.fields) (Counters.stat.inj hnew) (Counters.stat.inj hold)
    exact repaired_stat rfl hdiff hmem hn
  | other => exact hs.elim

end Proc
end Hmon
