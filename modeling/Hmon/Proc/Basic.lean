import Hmon.C
import Hmon.Lib.Lts

/-!
# The plugin that reads `/proc` (`lproc.c`, `proc_monitor.c`)

* `Kernel` : what the files of `/proc` and `clock` show at one time;
* `ProcStat`, `ProcCpu`, `ProcMem`, `ProcNuma` : the records of `lproc.c` without their arrays, `Rec` : a record with
  its array `values`;
* `ProcEventset`, `hmonitorEventsetInit`, `hmonitorEventsetAddNamedEvent`, `hmonitorEventsetStart`,
  `hmonitorEventsetRead` : the plugin; `procRuns` : the runs of its start and read calls.
-/

namespace Hmon
namespace Proc
open Lib

/-- What the plugin does with `double` on top of the library. -/
class DoubleArith (V : Type) extends Double V, Mul V, Div V where
  /-- The conversion of an `unsigned long`. -/
  ofULong : UInt64 → V
  ofULong_zero_ne_one : ofULong 0 ≠ ofULong 1

open Proc.DoubleArith (ofULong)

instance : DoubleArith ℚ where
  ofULong n := n.toNat
  ofULong_zero_ne_one := by decide

/-! ## What the kernel shows -/

/-- The values of `/proc/<pid>/stat` that `fscanf` converts, in their order. -/
structure StatLine where
  pid : UInt32
  state : UInt8
  minFlt : UInt64
  cminFlt : UInt64
  majFlt : UInt64
  cmajFlt : UInt64
  utime : UInt64
  stime : UInt64
  cutime : UInt64
  cstime : UInt64
  numThreads : UInt64
  startTime : UInt64
  vsize : UInt64
  rss : UInt64
  rsslim : UInt64
  taskCpu : UInt32
  blkioTicks : UInt64

/-- The counters of one line of `/proc/stat`. -/
structure CpuLine where
  user : UInt64
  nice : UInt64
  system : UInt64
  idle : UInt64
  iowait : UInt64
  irq : UInt64
  softirq : UInt64

structure MemFile where
  total : UInt64
  free : UInt64
  used : UInt64

structure NumaFile where
  localHit : UInt64
  remoteHit : UInt64

/-- A snapshot: the files of `/proc` and `/sys`, and what `clock` returns. The line of a cpu is the one that the
search for it in `/proc/stat` ends with; the memory of a negative node is `/proc/meminfo`. -/
structure Kernel where
  stat : StatLine
  clock : UInt64
  cpu : Int → CpuLine
  mem : Int → MemFile
  numa : Int → NumaFile

/-! ## The records of `lproc.c` -/

/-- `struct proc_stat` without its file name and its array. -/
structure ProcStat where
  pid : UInt32
  state : UInt8
  minFlt : UInt64
  cminFlt : UInt64
  majFlt : UInt64
  cmajFlt : UInt64
  utime : UInt64
  stime : UInt64
  cutime : Int64
  cstime : Int64
  numThreads : UInt64
  startTime : UInt64
  vsize : UInt64
  rss : UInt32
  rsslim : UInt32
  taskCpu : UInt32
  blkioTicks : UInt64
  timestamp : UInt64
  deriving DecidableEq

structure ProcCpu where
  cpu : Int
  user : UInt64
  nice : UInt64
  system : UInt64
  idle : UInt64
  iowait : UInt64
  irq : UInt64
  softirq : UInt64
  deriving DecidableEq

structure ProcMem where
  node : Int
  total : UInt64
  free : UInt64
  used : UInt64
  deriving DecidableEq

structure ProcNuma where
  node : Int
  localHit : UInt64
  remoteHit : UInt64
  deriving DecidableEq

/-- A record with its array of doubles. -/
structure Rec (F V : Type) where
  fields : F
  values : Nat → V

variable {V : Type} [DoubleArith V]

/-- The array of a new record: the loop over it writes its first cell only, the others are as `malloc` left them. -/
def newValues (garbage : Nat → V) (i : Nat) : V := if i = 0 then 0 else garbage i

def newProcStat (pid : UInt32) (garbage : Nat → V) : Rec ProcStat V :=
  ⟨⟨pid, 'R'.toUInt8, 0, 0, 0, 0, 0, 0, 0, 0, 0, 0, 0, 0, 0, 0, 0, 0⟩, newValues garbage⟩

def newProcCpu (cpu : Int) (garbage : Nat → V) : Rec ProcCpu V := ⟨⟨cpu, 0, 0, 0, 0, 0, 0, 0⟩, newValues garbage⟩

/-- `new_proc_mem`: `total` is as `malloc` left it. -/
def newProcMem (nodeID : Int) (total : UInt64) (garbage : Nat → V) : Rec ProcMem V :=
  ⟨⟨nodeID, total, 0, 0⟩, newValues garbage⟩

def newProcNuma (nodeID : Int) (garbage : Nat → V) : Rec ProcNuma V := ⟨⟨nodeID, 0, 0⟩, newValues garbage⟩

/-- `proc_stat_update`: the values at the places of `cutime` and `cstime` go to `utime` and `stime` as well, and `rss`
and `rsslim` keep 32 bits. -/
def procStatUpdate (p : ProcStat) (k : Kernel) : ProcStat :=
  { p with
    pid := k.stat.pid
    state := k.stat.state
    minFlt := k.stat.minFlt
    cminFlt := k.stat.cminFlt
    majFlt := k.stat.majFlt
    cmajFlt := k.stat.cmajFlt
    utime := k.stat.cutime
    stime := k.stat.cstime
    numThreads := k.stat.numThreads
    startTime := k.stat.startTime
    vsize := k.stat.vsize
    rss := k.stat.rss.toUInt32
    rsslim := k.stat.rsslim.toUInt32
    taskCpu := k.stat.taskCpu
    blkioTicks := k.stat.blkioTicks
    timestamp := k.clock }

def procCpuUpdate (p : ProcCpu) (k : Kernel) : ProcCpu :=
  let line := k.cpu p.cpu
  ⟨p.cpu, line.user, line.nice, line.system, line.idle, line.iowait, line.irq, line.softirq⟩

def procMemUpdate (p : ProcMem) (k : Kernel) : ProcMem :=
  let file := k.mem p.node
  ⟨p.node, file.total, file.free, if 0 ≤ p.node then file.used else file.total - file.free⟩

def procNumaUpdate (p : ProcNuma) (k : Kernel) : ProcNuma :=
  ⟨p.node, (k.numa p.node).localHit, (k.numa p.node).remoteHit⟩

def procStatDiff (res lhs rhs : ProcStat) : ProcStat :=
  { res with
    minFlt := lhs.minFlt - rhs.minFlt
    cminFlt := lhs.cminFlt - rhs.cminFlt
    majFlt := lhs.majFlt - rhs.majFlt
    cmajFlt := lhs.cmajFlt - rhs.cmajFlt
    utime := lhs.utime - rhs.utime
    stime := lhs.stime - rhs.stime
    cutime := lhs.cutime - rhs.cutime
    cstime := lhs.cstime - rhs.cstime
    numThreads := if lhs.numThreads > rhs.numThreads then lhs.numThreads else rhs.numThreads
    startTime := if lhs.startTime < rhs.startTime then lhs.startTime else rhs.startTime
    vsize := if lhs.vsize > rhs.vsize then lhs.vsize else rhs.vsize
    rss := if lhs.rss > rhs.rss then lhs.rss else rhs.rss
    rsslim := if lhs.rsslim > rhs.rsslim then lhs.rsslim else rhs.rsslim
    taskCpu := lhs.taskCpu
    blkioTicks := lhs.blkioTicks - rhs.blkioTicks
    timestamp := lhs.timestamp - rhs.timestamp }

def procCpuDiff (lhs rhs : ProcCpu) : ProcCpu :=
  ⟨if lhs.cpu = rhs.cpu then lhs.cpu else -1, lhs.user - rhs.user, lhs.nice - rhs.nice, lhs.system - rhs.system,
    lhs.idle - rhs.idle, lhs.iowait - rhs.iowait, lhs.irq - rhs.irq, lhs.softirq - rhs.softirq⟩

def procNumaDiff (lhs rhs : ProcNuma) : ProcNuma :=
  ⟨if lhs.node = rhs.node then lhs.node else -1, lhs.localHit - rhs.localHit, lhs.remoteHit - rhs.remoteHit⟩

/-- `proc_stat_cpuload`: `none` for a division by zero. -/
def procStatCpuload (old new : ProcStat) : Option UInt64 :=
  let usage := (new.utime + new.stime + new.utime + new.stime) - (old.utime + old.stime + old.utime + old.stime)
  if usage = 0 then some usage
  else if new.timestamp - old.timestamp = 0 then none
  else some (100 * usage / (new.timestamp - old.timestamp))

def procCpuLoad [DecidableEq V] (old new : ProcCpu) : V :=
  let usage : V := ofULong ((new.user + new.nice + new.system) - (old.user + old.nice + old.system))
  if usage = ofULong 0 then ofULong 0 else ofULong 100 * usage / (usage + ofULong (new.idle - old.idle))

/-! ### The casts that fill `values` -/

def procStatCastDouble (p : ProcStat) : List V :=
  [ofULong p.minFlt, ofULong p.cminFlt, ofULong p.majFlt, ofULong p.cmajFlt, ofULong p.utime, ofULong p.stime,
    Double.ofLong p.cutime.toInt, Double.ofLong p.cstime.toInt, ofULong p.numThreads, ofULong p.startTime,
    ofULong p.vsize, ofULong p.rss.toUInt64, ofULong p.rsslim.toUInt64, ofULong p.taskCpu.toUInt64,
    ofULong p.blkioTicks, ofULong p.timestamp]

def procCpuCastDouble (p : ProcCpu) : List V :=
  [Double.ofLong p.cpu, ofULong p.user, ofULong p.nice, ofULong p.system, ofULong p.idle, ofULong p.iowait,
    ofULong p.irq, ofULong p.softirq]

def procMemCastDouble (p : ProcMem) : List V := [Double.ofLong p.node, ofULong p.total, ofULong p.free, ofULong p.used]

def procNumaCastDouble (p : ProcNuma) : List V := [Double.ofLong p.node, ofULong p.localHit, ofULong p.remoteHit]

/-! ## The eventset -/

/-- The locations of `hmonitor_eventset_init`. -/
inductive ProcLocation
  | pu (osIndex : Nat)
  | numaNode (logicalIndex : Nat)
  | machine
  | other
  deriving DecidableEq

/-- Three records `[old, current, diff]`. -/
structure Slots (F V : Type) where
  old : Rec F V
  current : Rec F V
  diff : Rec F V

/-- The address of an event: a variable of the eventset, or a cell of `ps[2]->values`, `pc[2]->values`, `pm->values`,
`pn[2]->values`. -/
inductive Event
  | cpuLoad
  | minFlt
  | majFlt
  | stat (i : Nat)
  | cpu (i : Nat)
  | mem (i : Nat)
  | numa (i : Nat)
  deriving DecidableEq

structure ProcEventset (V : Type) where
  ps : Option (Slots ProcStat V)
  pc : Option (Slots ProcCpu V)
  pm : Option (Rec ProcMem V)
  pn : Option (Slots ProcNuma V)
  cpuLoad : V
  minFlt : V
  majFlt : V
  events : List Event
  location : ProcLocation

/-- The memory that `malloc` returns for the records: their arrays by record and cell, and a field. -/
structure Heap (V : Type) where
  values : Nat → Nat → V
  total : UInt64

/-- `hmonitor_eventset_init`: `none` for a location that is not accepted. -/
def hmonitorEventsetInit (heap : Heap V) (pid : UInt32) (location : ProcLocation) : Option (ProcEventset V) :=
  let evset : ProcEventset V := ⟨none, none, none, none, 0, 0, 0, [], location⟩
  match location with
  | .pu osIndex =>
    let new (i : Nat) := newProcCpu (osIndex : Int) (heap.values i)
    some { evset with pc := some ⟨new 0, new 1, new 2⟩ }
  | .numaNode logicalIndex =>
    let new (i : Nat) := newProcNuma (logicalIndex : Int) (heap.values i)
    some { evset with
      pm := some (newProcMem (logicalIndex : Int) heap.total (heap.values 3)), pn := some ⟨new 0, new 1, new 2⟩ }
  | .machine =>
    let new (i : Nat) := newProcStat pid (heap.values i)
    some { evset with ps := some ⟨new 0, new 1, new 2⟩ }
  | .other => none

/-- The names that a location knows. -/
def ProcLocation.events : ProcLocation → List (String × Event)
  | .pu _ => [("cpuload", .cpuLoad), ("iowait", .cpu 5), ("irq", .cpu 6), ("softirq", .cpu 7)]
  | .numaNode _ =>
    [("memtotal", .mem 1), ("memused", .mem 3), ("memfree", .mem 2), ("local_hit", .numa 1), ("remote_hit", .numa 2)]
  | .machine =>
    [("cpuload", .cpuLoad), ("minor_faults", .minFlt), ("major_faults", .majFlt), ("vsize", .stat 10),
      ("rss", .stat 11), ("blkio_ticks", .stat 14)]
  | .other => []

/-- The address of an event. -/
def ProcLocation.event (location : ProcLocation) (counter : String) : Option Event := location.events.lookup counter

def maxEvents : Nat := 16

/-- `hmonitor_eventset_add_named_event`: `none` is the answer `-1`. -/
def hmonitorEventsetAddNamedEvent (evset : ProcEventset V) (counter : String) : Option (ProcEventset V) :=
  if maxEvents ≤ evset.events.length then none
  else (evset.location.event counter).map fun event => { evset with events := evset.events ++ [event] }

/-- An eventset with its events added. -/
def hmonitorEventset (heap : Heap V) (pid : UInt32) (location : ProcLocation) (names : List String) :
    Option (ProcEventset V) :=
  (hmonitorEventsetInit heap pid location).bind fun evset => names.foldlM hmonitorEventsetAddNamedEvent evset

def Rec.update {F : Type} (update : F → Kernel → F) (k : Kernel) (r : Rec F V) : Rec F V :=
  { r with fields := update r.fields k }

def hmonitorEventsetStart (evset : ProcEventset V) (k : Kernel) : ProcEventset V :=
  { evset with
    ps := evset.ps.map fun s => { s with old := s.old.update procStatUpdate k }
    pc := evset.pc.map fun s => { s with old := s.old.update procCpuUpdate k }
    pm := evset.pm.map (Rec.update procMemUpdate k)
    pn := evset.pn.map fun s => { s with old := s.old.update procNumaUpdate k } }

/-- The first half of `hmonitor_eventset_read`: swap old and new, update new, and the differences of `ps` and `pn`. -/
def rotate (evset : ProcEventset V) (k : Kernel) : ProcEventset V :=
  { evset with
    ps := evset.ps.map fun s =>
      let new := s.old.update procStatUpdate k
      ⟨s.current, new, { s.diff with fields := procStatDiff s.diff.fields new.fields s.current.fields }⟩
    pc := evset.pc.map fun s => { s with old := s.current, current := s.old.update procCpuUpdate k }
    pm := evset.pm.map (Rec.update procMemUpdate k)
    pn := evset.pn.map fun s =>
      let new := s.old.update procNumaUpdate k
      ⟨s.current, new, { s.diff with fields := procNumaDiff new.fields s.current.fields }⟩ }

/-- The second half: store variations. -/
def storeVariations [DecidableEq V] (evset : ProcEventset V) : Option (ProcEventset V) :=
  match evset.location, evset.ps, evset.pc with
  | .machine, some s, _ =>
    (procStatCpuload s.old.fields s.current.fields).map fun load =>
      { evset with
        cpuLoad := ofULong load
        minFlt := ofULong (s.diff.fields.minFlt + s.diff.fields.cminFlt)
        majFlt := ofULong (s.diff.fields.majFlt + s.diff.fields.cmajFlt) }
  | .pu _, _, some s => some { evset with cpuLoad := procCpuLoad s.old.fields s.current.fields }
  | _, _, _ => some evset

/-- `*(evset->events[i])`. -/
def ProcEventset.value (evset : ProcEventset V) : Event → V
  | .cpuLoad => evset.cpuLoad
  | .minFlt => evset.minFlt
  | .majFlt => evset.majFlt
  | .stat i => (evset.ps.map fun s => s.diff.values i).getD 0
  | .cpu i => (evset.pc.map fun s => s.diff.values i).getD 0
  | .mem i => (evset.pm.map fun r => r.values i).getD 0
  | .numa i => (evset.pn.map fun s => s.diff.values i).getD 0

/-- `hmonitor_eventset_read`: the values and the eventset; `none` when the load divides by zero. -/
def hmonitorEventsetRead [DecidableEq V] (evset : ProcEventset V) (k : Kernel) : Option (List V × ProcEventset V) :=
  (storeVariations (rotate evset k)).map fun evset => (evset.events.map evset.value, evset)

/-- A call, with the snapshot that it finds. -/
inductive ProcCall
  | start (k : Kernel)
  | read (k : Kernel)

/-- The runs of start and read calls. -/
def procRuns (V : Type) [DoubleArith V] [DecidableEq V] : Lts (ProcEventset V) ProcCall where
  next evset
    | .start k => some (hmonitorEventsetStart evset k)
    | .read k => (hmonitorEventsetRead evset k).map Prod.snd

end Proc
end Hmon
