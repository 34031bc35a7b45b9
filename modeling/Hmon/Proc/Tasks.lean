import Hmon.Hwloc
import Hmon.Lib.CString
import Hmon.Proc.StatFile
import Mathlib.Data.Finset.Union

/-!
# The running tasks of a process (`running_cpuset_and` in `proc.c`)

* `ProcFs` : the files and directories under `/proc`;
* `runningCpusetAnd` : the walk, with the one buffer for all paths; `Variables` : what a call does not initialise;
* `reached`, `opened`, `runningProcessors` : the tasks of the tree, the paths that are built, and the expected set;
* `runningCpusetAnd_eq` : **every level gives the buffer back**, and each task adds `added`;
* `runningCpusetAnd_iff` : **exactly when the processors of the running tasks are added**;
* `procGetRunningCpuset` : the caller.
-/

namespace Hmon
namespace Proc
open Lib

/-! ## The files -/

/-- What opening and reading a stat file gives. A process that has ended leaves an opened file without content. The
kernel prints names of fewer than 64 characters. -/
inductive StatAccess
  | missing
  | ended
  | file (f : StatFile) (comm_lt : f.comm.length < 64)

/-- What `read_proc_stats` is given. -/
def StatAccess.text : StatAccess → Option (List Char)
  | missing => none
  | ended => some []
  | file f _ => some f.text

structure ProcFs where
  stat : (path : List Char) → StatAccess
  /-- What `readdir` returns, when the directory can be opened. -/
  entries : (path : List Char) → Option (List (List Char))
  names : ∀ path list, entries path = some list → ∀ name ∈ list, '\x00' ∉ name

/-! ## `running_cpuset_and` -/

/-- The variables that a call and its call of `read_proc_stats` do not initialise. -/
structure Variables where
  taskInfos : ProcTask
  state : Char
  puNum : UInt32

/-- `hwloc_bitmap_set` of a task that is running. -/
def setRunning (task : ProcTask) (cpuset : Cpuset) : Cpuset :=
  if task.state = running then insert task.puNum.toUInt32.toNat cpuset else cpuset

/-- The size that is left behind `len` characters. -/
def room (maxLen : UInt64) (len : Nat) : Nat := sizeT (maxLen.toNat - len)

section
variable (fs : ProcFs) (held : (path : List Char) → Variables) (maxLen : UInt64)

/-- The entries that are skipped. -/
def dots (name : List Char) : Bool := name == ['.'] || name == ['.', '.']

/-- The part before the recursion. -/
def readTask (buf : List Char) (cpuset : Cpuset) : Option (List Char × Cpuset) := do
  let v := held (cstring buf)
  let len := strlen buf
  let buf ← storeAt buf len (snprintf (room maxLen len) "/stat".toList)
  let (_, taskInfos) := readProcStats v.taskInfos v.state v.puNum (fs.stat (cstring buf)).text
  let buf ← memset buf len 5
  some (buf, setRunning taskInfos cpuset)

/-- The body of the loop over the entries of the directory behind `len` characters; `call` is the recursive call. -/
def readEntry (call : List Char → Cpuset → Option (List Char × Cpuset)) (len : Nat) (s : List Char × Cpuset)
    (name : List Char) : Option (List Char × Cpuset) :=
  if dots name then some s
  else do
    let buf ← storeAt s.1 (len + 6) (snprintf (room maxLen (len + 6)) name)
    let (buf, cpuset) ← call buf s.2
    let buf ← memset buf (len + 6) name.length
    some (buf, cpuset)

/-- The loop over the directory whose path is in the buffer, if it can be opened. -/
def readDirectory (call : List Char → Cpuset → Option (List Char × Cpuset)) (len : Nat) (s : List Char × Cpuset) :
    Option (List Char × Cpuset) :=
  match fs.entries (cstring s.1) with
  | none => some s
  | some names => names.foldlM (readEntry maxLen call len) s

/-- `running_cpuset_and`; `none` where it writes outside of the buffer. -/
def runningCpusetAnd : (recurse : Nat) → (taskDirName : List Char) → Cpuset → Option (List Char × Cpuset)
  | 0, buf, cpuset => readTask fs held maxLen buf cpuset
  | recurse + 1, buf, cpuset => do
    let len := strlen buf
    let (buf, cpuset) ← readTask fs held maxLen buf cpuset
    let buf ← storeAt buf len (snprintf (room maxLen len) "/task/".toList)
    let (buf, cpuset) ← readDirectory fs maxLen (runningCpusetAnd recurse) len (buf, cpuset)
    let buf ← memset buf len 6
    some (buf, cpuset)

end

/-! ## The tree -/

section
variable (fs : ProcFs)

/-- The tasks in the directory of a task. -/
def children (path : List Char) : List (List Char) :=
  match fs.entries (path ++ "/task/".toList) with
  | none => []
  | some names => (names.filter fun name => !dots name).map (path ++ "/task/".toList ++ ·)

/-- The tasks reached through at most `recurse` directories. -/
def reached : (recurse : Nat) → (path : List Char) → List (List Char)
  | 0, path => [path]
  | recurse + 1, path => path :: (children fs path).flatMap (reached recurse)

/-- The paths that are opened on the way. -/
def opened : (recurse : Nat) → (path : List Char) → List (List Char)
  | 0, path => [path ++ "/stat".toList]
  | recurse + 1, path =>
    (path ++ "/stat".toList) :: (path ++ "/task/".toList) :: (children fs path).flatMap (opened recurse)

/-- The task of a path is `f`, and it is running. -/
def Runs (path : List Char) (f : StatFile) : Prop :=
  ∃ h, fs.stat (path ++ "/stat".toList) = .file f h ∧ f.state = 'R'

/-- The processor of a running task. -/
def processorOf (path : List Char) : Option Nat :=
  match fs.stat (path ++ "/stat".toList) with
  | .file f _ => if f.state = 'R' then some f.processor else none
  | _ => none

/-- The processors of the running tasks. -/
def runningProcessors (recurse : Nat) (path : List Char) : Cpuset :=
  ((reached fs recurse path).filterMap (processorOf fs)).toFinset

end

/-- The walk adds the processors of the running tasks and gives the buffer back, whatever is in the variables that it
does not initialise. -/
def AddsRunning (fs : ProcFs) (maxLen : UInt64) (recurse : Nat) (path : List Char) (cpuset : Cpuset) : Prop :=
  ∀ held, runningCpusetAnd fs held maxLen recurse (zeroed maxLen.toNat path) cpuset =
    some (zeroed maxLen.toNat path, cpuset ∪ runningProcessors fs recurse path)

/-! ## The buffer -/

theorem room_eq {maxLen : UInt64} {len : Nat} (h : len ≤ maxLen.toNat) : room maxLen len = maxLen.toNat - len := by
  have hlt := maxLen.toNat_lt
  unfold room
  rw [sizeT_of_nonneg (by omega) (by omega)]
  omega

section Walk
variable {fs : ProcFs} {held : (path : List Char) → Variables} {maxLen : UInt64}

/-- Text is printed behind a path. -/
theorem storeAt_path {path text : List Char} (hfit : (path ++ text).length < maxLen.toNat) :
    storeAt (zeroed maxLen.toNat path) path.length (snprintf (room maxLen path.length) text) =
      some (zeroed maxLen.toNat (path ++ text)) := by
  rw [room_eq (by rw [List.length_append] at hfit; omega)]
  exact zeroed_append hfit

theorem biUnion_flatMap (l : List (List Char)) (f : List Char → List (List Char)) (s : List Char → Cpuset) :
    (l.flatMap f).toFinset.biUnion s = l.toFinset.biUnion fun q => (f q).toFinset.biUnion s := by
  induction l with
  | nil => rfl
  | cons q l ih =>
    rw [List.flatMap_cons, List.toFinset_append, Finset.union_biUnion, ih, List.toFinset_cons, Finset.biUnion_insert]

/-- What a task adds. -/
def added (fs : ProcFs) (held : (path : List Char) → Variables) (path : List Char) : Cpuset :=
  let v := held path
  setRunning (readProcStats v.taskInfos v.state v.puNum (fs.stat (path ++ "/stat".toList)).text).2 ∅

theorem setRunning_eq (task : ProcTask) (cpuset : Cpuset) : setRunning task cpuset = cpuset ∪ setRunning task ∅ := by
  unfold setRunning
  split_ifs
  · rw [insert_empty_eq, Finset.insert_eq, Finset.union_comm]
  · rw [Finset.union_empty]

variable (fs held) in
theorem readTask_eq {path : List Char} (hpath : '\x00' ∉ path)
    (hfit : (path ++ "/stat".toList).length < maxLen.toNat) (cpuset : Cpuset) :
    readTask fs held maxLen (zeroed maxLen.toNat path) cpuset =
      some (zeroed maxLen.toNat path, cpuset ∪ added fs held path) := by
  have hstat : '\x00' ∉ path ++ "/stat".toList := List.not_mem_append hpath (by decide)
  have hcut : memset (zeroed maxLen.toNat (path ++ "/stat".toList)) path.length 5 = some (zeroed maxLen.toNat path) :=
    zeroed_cut hfit.le
  unfold readTask
  simp only [strlen_zeroed hpath, cstring_zeroed hpath, storeAt_path hfit, Option.bind_eq_bind, Option.bind_some,
    cstring_zeroed hstat, hcut]
  rw [setRunning_eq]
  rfl

/-- An entry for which the call gives the buffer back. -/
theorem readEntry_eq {call : List Char → Cpuset → Option (List Char × Cpuset)} {dir name : List Char} {len : Nat}
    {s : Cpuset} (hdir : len + 6 = dir.length) (hname : dots name = false)
    (hfit : (dir ++ name).length < maxLen.toNat) (cpuset : Cpuset)
    (hcall : call (zeroed maxLen.toNat (dir ++ name)) cpuset = some (zeroed maxLen.toNat (dir ++ name), cpuset ∪ s)) :
    readEntry maxLen call len (zeroed maxLen.toNat dir, cpuset) name = some (zeroed maxLen.toNat dir, cpuset ∪ s) := by
  unfold readEntry
  simp only [hname, Bool.false_eq_true, if_false, hdir, storeAt_path hfit, Option.bind_eq_bind,
    Option.bind_some, hcall, zeroed_cut hfit.le]

/-- The loop over the entries, when each call gives the buffer back. -/
theorem readEntries_eq {call : List Char → Cpuset → Option (List Char × Cpuset)} {dir : List Char} {len : Nat}
    {s : List Char → Cpuset} (hdir : len + 6 = dir.length) (names : List (List Char))
    (hcall : ∀ name ∈ names, dots name = false → (dir ++ name).length < maxLen.toNat ∧
      ∀ cpuset, call (zeroed maxLen.toNat (dir ++ name)) cpuset =
        some (zeroed maxLen.toNat (dir ++ name), cpuset ∪ s (dir ++ name))) (cpuset : Cpuset) :
    names.foldlM (readEntry maxLen call len) (zeroed maxLen.toNat dir, cpuset) =
      some (zeroed maxLen.toNat dir, cpuset ∪
        ((names.filter fun name => !dots name).map (dir ++ ·)).toFinset.biUnion s) := by
  induction names generalizing cpuset with
  | nil => simp
  | cons name names ih =>
    have ih := ih fun name hname => hcall name (List.mem_cons_of_mem _ hname)
    rw [List.foldlM_cons]
    cases hdot : dots name with
    | true =>
      have hskip : readEntry maxLen call len (zeroed maxLen.toNat dir, cpuset) name =
          some (zeroed maxLen.toNat dir, cpuset) := if_pos hdot
      rw [hskip, Option.bind_eq_bind, Option.bind_some, ih, List.filter_cons_of_neg (by rw [hdot]; decide)]
    | false =>
      obtain ⟨hfit, hcall⟩ := hcall name List.mem_cons_self hdot
      rw [readEntry_eq hdir hdot hfit cpuset (hcall cpuset), Option.bind_eq_bind, Option.bind_some, ih,
        List.filter_cons_of_pos (by rw [hdot]; decide), List.map_cons, List.toFinset_cons, Finset.biUnion_insert,
        Finset.union_assoc]

/-- The tasks of a directory, when each call gives the buffer back. -/
theorem readDirectory_eq {call : List Char → Cpuset → Option (List Char × Cpuset)} {s : List Char → Cpuset}
    {path : List Char} (hpath : '\x00' ∉ path) (hcall : ∀ q ∈ children fs path, q.length < maxLen.toNat ∧
      ∀ cpuset, call (zeroed maxLen.toNat q) cpuset = some (zeroed maxLen.toNat q, cpuset ∪ s q)) (cpuset : Cpuset) :
    readDirectory fs maxLen call path.length (zeroed maxLen.toNat (path ++ "/task/".toList), cpuset) =
      some (zeroed maxLen.toNat (path ++ "/task/".toList), cpuset ∪ (children fs path).toFinset.biUnion s) := by
  have htask : '\x00' ∉ path ++ "/task/".toList := List.not_mem_append hpath (by decide)
  unfold readDirectory
  simp only [cstring_zeroed htask]
  unfold children at hcall ⊢
  cases hentries : fs.entries (path ++ "/task/".toList) with
  | none => simp
  | some names =>
    rw [hentries] at hcall
    have hlen : path.length + 6 = (path ++ "/task/".toList).length := by
      rw [List.length_append]
      rfl
    refine readEntries_eq hlen names (fun name hname hdot => ?_) cpuset
    have hkept : name ∈ names.filter fun name => !dots name :=
      List.mem_filter.mpr ⟨hname, by rw [hdot]; decide⟩
    exact hcall _ (List.mem_map_of_mem hkept)

/-- The paths of the tasks in a directory are strings. -/
theorem not_nul_of_mem_children {path q : List Char} (hpath : '\x00' ∉ path) (hq : q ∈ children fs path) :
    '\x00' ∉ q := by
  have htask : '\x00' ∉ path ++ "/task/".toList := List.not_mem_append hpath (by decide)
  unfold children at hq
  cases hentries : fs.entries (path ++ "/task/".toList) with
  | none =>
    rw [hentries] at hq
    exact absurd hq List.not_mem_nil
  | some names =>
    rw [hentries] at hq
    obtain ⟨name, hname, rfl⟩ := List.mem_map.mp hq
    exact List.not_mem_append htask (fs.names _ _ hentries name (List.mem_of_mem_filter hname))

theorem stat_mem_opened (fs : ProcFs) (recurse : Nat) (path : List Char) :
    path ++ "/stat".toList ∈ opened fs recurse path := by
  cases recurse with
  | zero => exact List.mem_singleton_self _
  | succ recurse => exact List.mem_cons_self

/-- A path whose stat file can be named fits itself. -/
theorem fits_of_opened {recurse : Nat} {path : List Char}
    (hfit : ∀ q ∈ opened fs recurse path, q.length < maxLen.toNat) : path.length < maxLen.toNat := by
  have hstat := hfit _ (stat_mem_opened fs recurse path)
  rw [List.length_append] at hstat
  omega

/-- **The walk gives the buffer back**, at every level, and adds what the reached tasks add. -/
theorem runningCpusetAnd_eq (recurse : Nat) {path : List Char} (hpath : '\x00' ∉ path)
    (hfit : ∀ q ∈ opened fs recurse path, q.length < maxLen.toNat) (cpuset : Cpuset) :
    runningCpusetAnd fs held maxLen recurse (zeroed maxLen.toNat path) cpuset =
      some (zeroed maxLen.toNat path, cpuset ∪ (reached fs recurse path).toFinset.biUnion (added fs held)) := by
  have hread := readTask_eq fs held hpath (hfit _ (stat_mem_opened fs _ path))
  induction recurse generalizing path cpuset with
  | zero => simpa [runningCpusetAnd, reached] using hread cpuset
  | succ recurse ih =>
    have hfitTask : (path ++ "/task/".toList).length < maxLen.toNat :=
      hfit _ (List.mem_cons_of_mem _ List.mem_cons_self)
    have hcut : memset (zeroed maxLen.toNat (path ++ "/task/".toList)) path.length 6 =
        some (zeroed maxLen.toNat path) := zeroed_cut hfitTask.le
    have hcall : ∀ q ∈ children fs path, q.length < maxLen.toNat ∧
        ∀ cpuset, runningCpusetAnd fs held maxLen recurse (zeroed maxLen.toNat q) cpuset =
          some (zeroed maxLen.toNat q, cpuset ∪ (reached fs recurse q).toFinset.biUnion (added fs held)) := by
      intro q hq
      have hnul := not_nul_of_mem_children hpath hq
      have hfits : ∀ r ∈ opened fs recurse q, r.length < maxLen.toNat := fun r hr =>
        hfit r (List.mem_cons_of_mem _ (List.mem_cons_of_mem _ (List.mem_flatMap.mpr ⟨q, hq, hr⟩)))
      exact ⟨fits_of_opened hfits, fun cpuset => ih hnul hfits cpuset
        (readTask_eq fs held hnul (hfits _ (stat_mem_opened fs _ q)))⟩
    have hreached : reached fs (recurse + 1) path = path :: (children fs path).flatMap (reached fs recurse) := rfl
    rw [hreached, List.toFinset_cons, Finset.biUnion_insert, biUnion_flatMap, ← Finset.union_assoc]
    unfold runningCpusetAnd
    simp only [strlen_zeroed hpath, hread, Option.bind_eq_bind, Option.bind_some, storeAt_path hfitTask,
      readDirectory_eq hpath hcall, hcut]

/-! ## What is added -/

/-- The name of the task has white space. -/
def hasWhite (f : StatFile) : Bool := f.comm.any isspace

/-- The file makes the code set a processor that it has not read: it ends at once, or the name has white space and
an `R` behind it. -/
def stray (fs : ProcFs) (path : List Char) : Bool :=
  match fs.stat (path ++ "/stat".toList) with
  | .missing => false
  | .ended => true
  | .file f _ => hasWhite f && afterWhite f.comm == 'R'

theorem setRunning_ite (c : Prop) [Decidable c] (n : UInt32) :
    setRunning ⟨n.toInt32, if c then running else sleeping⟩ ∅ = if c then {n.toNat} else ∅ := by
  unfold setRunning
  rw [UInt32.toUInt32_toInt32]
  by_cases hc : c
  · rw [if_pos hc, if_pos hc, if_pos rfl]
    rfl
  · rw [if_neg hc, if_neg hc, if_neg (show sleeping ≠ running by decide)]

theorem added_missing {path : List Char} (h : fs.stat (path ++ "/stat".toList) = .missing) :
    added fs held path = ∅ := by
  unfold added
  rw [h]
  rfl

theorem added_ended {path : List Char} (h : fs.stat (path ++ "/stat".toList) = .ended) :
    added fs held path = setRunning (held path).taskInfos ∅ := by
  unfold added
  rw [h]
  rfl

theorem added_file {path : List Char} {f : StatFile} {hlen : f.comm.length < 64}
    (h : fs.stat (path ++ "/stat".toList) = .file f hlen) (hwhite : hasWhite f = false) :
    added fs held path = if f.state = 'R' then {f.processor} else ∅ := by
  have hcomm : ∀ x ∈ f.comm, isspace x = false := by simpa [hasWhite] using hwhite
  have hlt := f.processor_lt
  have hprocessor : (UInt32.ofNat f.processor).toNat = f.processor := by
    rw [UInt32.toNat_ofNat', Nat.mod_eq_of_lt (by omega)]
  unfold added
  simp only [h, StatAccess.text, readProcStats_eq hcomm, setRunning_ite, hprocessor]

theorem added_white {path : List Char} {f : StatFile} {hlen : f.comm.length < 64}
    (h : fs.stat (path ++ "/stat".toList) = .file f hlen) (hwhite : hasWhite f = true) :
    added fs held path = if afterWhite f.comm = 'R' then {(held path).puNum.toNat} else ∅ := by
  obtain ⟨x, hx, hspace⟩ := List.any_eq_true.mp hwhite
  unfold added
  simp only [h, StatAccess.text, readProcStats_white hx hspace hlen, setRunning_ite]

/-- Where a processor comes from. -/
theorem mem_added {path : List Char} {n : Nat} (h : n ∈ added fs held path) :
    (∃ f, Runs fs path f ∧ hasWhite f = false ∧ f.processor = n) ∨ stray fs path = true ∧ n < 2 ^ 32 ∧
      ((held path).taskInfos.state = running ∨ n = (held path).puNum.toNat) := by
  cases hstat : fs.stat (path ++ "/stat".toList) with
  | missing =>
    rw [added_missing hstat] at h
    exact absurd h (Finset.notMem_empty n)
  | ended =>
    have hstray : stray fs path = true := by
      unfold stray
      rw [hstat]
    rw [added_ended hstat, setRunning] at h
    split_ifs at h with hrun
    · rw [insert_empty_eq, Finset.mem_singleton] at h
      exact .inr ⟨hstray, h ▸ UInt32.toNat_lt _, .inl hrun⟩
    · exact absurd h (Finset.notMem_empty n)
  | file f hlen =>
    cases hwhite : hasWhite f with
    | false =>
      rw [added_file hstat hwhite] at h
      split_ifs at h with hstate
      · exact .inl ⟨f, ⟨hlen, hstat, hstate⟩, hwhite, (Finset.mem_singleton.mp h).symm⟩
      · exact absurd h (Finset.notMem_empty n)
    | true =>
      rw [added_white hstat hwhite] at h
      split_ifs at h with hstate
      · have hn := Finset.mem_singleton.mp h
        have hstray : stray fs path = true := by
          unfold stray
          simp only [hstat, hwhite, hstate, Bool.true_and, beq_self_eq_true]
        exact .inr ⟨hstray, hn ▸ UInt32.toNat_lt _, .inr hn⟩
      · exact absurd h (Finset.notMem_empty n)

theorem mem_added_of_runs {path : List Char} {f : StatFile} (h : Runs fs path f) (hwhite : hasWhite f = false) :
    f.processor ∈ added fs held path := by
  obtain ⟨hlen, hstat, hstate⟩ := h
  rw [added_file hstat hwhite, if_pos hstate]
  exact Finset.mem_singleton_self _

/-- A stray file can make any processor be set. -/
theorem mem_added_of_stray {path : List Char} (h : stray fs path = true) {n : Nat} (hn : n < 2 ^ 32) :
    n ∈ added fs (fun _ => ⟨⟨(UInt32.ofNat n).toInt32, running⟩, 'R', UInt32.ofNat n⟩) path := by
  have hnat : (UInt32.ofNat n).toNat = n := by rw [UInt32.toNat_ofNat', Nat.mod_eq_of_lt hn]
  unfold stray at h
  split at h
  · cases h
  · rename_i hstat
    rw [added_ended hstat]
    simp only [setRunning, if_true, UInt32.toUInt32_toInt32, hnat]
    exact Finset.mem_singleton_self n
  · rename_i hstat
    have h := Bool.and_eq_true_iff.mp h
    rw [added_white hstat h.1, if_pos (beq_iff_eq.mp h.2), hnat]
    exact Finset.mem_singleton_self n

theorem mem_runningProcessors {recurse : Nat} {path : List Char} {n : Nat} :
    n ∈ runningProcessors fs recurse path ↔ ∃ q ∈ reached fs recurse path, ∃ f, Runs fs q f ∧ f.processor = n := by
  have hprocessor : ∀ q, processorOf fs q = some n ↔ ∃ f, Runs fs q f ∧ f.processor = n := by
    intro q
    unfold processorOf Runs
    cases hstat : fs.stat (q ++ "/stat".toList) with
    | missing => simp
    | ended => simp
    | file f hlen =>
      simp only [Option.ite_none_right_eq_some, Option.some.injEq]
      constructor
      · rintro ⟨hstate, hn⟩
        exact ⟨f, ⟨hlen, rfl, hstate⟩, hn⟩
      · rintro ⟨f', ⟨hlen', hf, hstate⟩, hn⟩
        cases hf
        exact ⟨hstate, hn⟩
  unfold runningProcessors
  rw [List.mem_toFinset, List.mem_filterMap]
  simp only [hprocessor]

/-! ## The condition -/

/-- No stat file makes the code set a processor that it has not read (unless the set has them all), and each running
task whose name has white space runs where the set has the processor already or another running task has it read. -/
structure ReadsRunning (fs : ProcFs) (recurse : Nat) (path : List Char) (cpuset : Cpuset) : Prop where
  stray : (∃ q ∈ reached fs recurse path, stray fs q = true) →
    ∀ n < 2 ^ 32, n ∈ cpuset ∨ n ∈ runningProcessors fs recurse path
  white : ∀ q ∈ reached fs recurse path, ∀ f, Runs fs q f → hasWhite f = true → f.processor ∈ cpuset ∨
    ∃ q' ∈ reached fs recurse path, ∃ f', Runs fs q' f' ∧ hasWhite f' = false ∧ f'.processor = f.processor

variable {recurse : Nat} {path : List Char} {cpuset : Cpuset}

/-- The sets are equal when the files can be read. -/
theorem added_of_readsRunning (h : ReadsRunning fs recurse path cpuset) (held : (path : List Char) → Variables) :
    cpuset ∪ (reached fs recurse path).toFinset.biUnion (added fs held) =
      cpuset ∪ runningProcessors fs recurse path := by
  ext n
  simp only [Finset.mem_union, Finset.mem_biUnion, List.mem_toFinset]
  constructor
  · rintro (hn | ⟨q, hq, hn⟩)
    · exact .inl hn
    · rcases mem_added hn with ⟨f, hruns, -, hf⟩ | ⟨hstray, hlt, -⟩
      · exact .inr (mem_runningProcessors.mpr ⟨q, hq, f, hruns, hf⟩)
      · exact h.stray ⟨q, hq, hstray⟩ n hlt
  · rintro (hn | hn)
    · exact .inl hn
    · obtain ⟨q, hq, f, hruns, rfl⟩ := mem_runningProcessors.mp hn
      cases hwhite : hasWhite f with
      | false => exact .inr ⟨q, hq, mem_added_of_runs hruns hwhite⟩
      | true =>
        rcases h.white q hq f hruns hwhite with hin | ⟨q', hq', f', hruns', hwhite', hf'⟩
        · exact .inl hin
        · exact .inr ⟨q', hq', hf' ▸ mem_added_of_runs hruns' hwhite'⟩

/-- If the sets are equal whatever the variables hold, the files can be read. -/
theorem readsRunning_of_added (h : ∀ held, cpuset ∪ (reached fs recurse path).toFinset.biUnion (added fs held) =
    cpuset ∪ runningProcessors fs recurse path) : ReadsRunning fs recurse path cpuset := by
  refine ⟨?_, ?_⟩
  · rintro ⟨q, hq, hstray⟩ n hn
    have hmem := Finset.mem_biUnion.mpr ⟨q, List.mem_toFinset.mpr hq, mem_added_of_stray hstray hn⟩
    rw [← Finset.mem_union, ← h]
    exact Finset.mem_union_right cpuset hmem
  · intro q hq f hruns hwhite
    -- the variables hold another processor
    let other : UInt32 := UInt32.ofNat (f.processor + 1)
    have hlt := f.processor_lt
    have hother : other.toNat = f.processor + 1 := by
      rw [UInt32.toNat_ofNat', Nat.mod_eq_of_lt (by omega)]
    have hmem : f.processor ∈ cpuset ∪ runningProcessors fs recurse path :=
      Finset.mem_union_right cpuset (mem_runningProcessors.mpr ⟨q, hq, f, hruns, rfl⟩)
    rw [← h fun _ => ⟨⟨0, sleeping⟩, 'S', other⟩] at hmem
    rcases Finset.mem_union.mp hmem with hin | hin
    · exact .inl hin
    · obtain ⟨q', hq', hadded⟩ := Finset.mem_biUnion.mp hin
      rcases mem_added hadded with ⟨f', hruns', hwhite', hf'⟩ | ⟨-, -, hstate | hpu⟩
      · exact .inr ⟨q', List.mem_toFinset.mp hq', f', hruns', hwhite', hf'⟩
      · exact absurd hstate (show sleeping ≠ running by decide)
      · exact absurd (hpu.trans hother) (by omega)

theorem addsRunning_iff (hpath : '\x00' ∉ path) (hfit : ∀ q ∈ opened fs recurse path, q.length < maxLen.toNat)
    (cpuset : Cpuset) : AddsRunning fs maxLen recurse path cpuset ↔ ReadsRunning fs recurse path cpuset := by
  unfold AddsRunning
  simp only [runningCpusetAnd_eq recurse hpath hfit cpuset, Option.some.injEq, Prod.mk.injEq, true_and]
  exact ⟨readsRunning_of_added, fun h held => added_of_readsRunning h held⟩

/-- **The processors of the running tasks are added exactly when the stat files can be read**; the buffer is given
back in any case. -/
theorem runningCpusetAnd_iff (hpath : '\x00' ∉ path) (hfit : ∀ q ∈ opened fs recurse path, q.length < maxLen.toNat)
    (cpuset : Cpuset) :
    (∀ held, ∃ cpuset', runningCpusetAnd fs held maxLen recurse (zeroed maxLen.toNat path) cpuset =
      some (zeroed maxLen.toNat path, cpuset')) ∧
    (AddsRunning fs maxLen recurse path cpuset ↔ ReadsRunning fs recurse path cpuset) :=
  ⟨fun _ => ⟨_, runningCpusetAnd_eq recurse hpath hfit cpuset⟩, addsRunning_iff hpath hfit cpuset⟩

/-! ## The caller -/

/-- `/proc/<pid>` -/
def procPath (pid : Int32) : List Char := "/proc/".toList ++ showInt pid.toInt

/-- `proc_get_running_cpuset`, with its buffer of 128 zeros. -/
def procGetRunningCpuset (fs : ProcFs) (held : (path : List Char) → Variables) (pid : Int32) (recurse : Nat) :
    Option Cpuset := do
  let buf ← storeAt (zeroed 128 []) 0 (snprintf 128 (procPath pid))
  let (_, cpuset) ← runningCpusetAnd fs held 128 recurse buf ∅
  some cpuset

/-- The caller gets the set of the running tasks under the same condition. -/
theorem procGetRunningCpuset_iff {pid : Int32} (hfit : ∀ q ∈ opened fs recurse (procPath pid), q.length < 128) :
    (∀ held, procGetRunningCpuset fs held pid recurse = some (runningProcessors fs recurse (procPath pid))) ↔
      ReadsRunning fs recurse (procPath pid) ∅ := by
  have hpath : '\x00' ∉ procPath pid := by
    refine List.not_mem_append (by decide) fun h => ?_
    rcases printed_showInt pid.toInt '\x00' h with h | h
    · exact absurd h (by decide)
    · exact absurd h (by decide)
  have hshort : (procPath pid).length < (128 : UInt64).toNat := fits_of_opened hfit
  have hbuf : storeAt (zeroed 128 []) 0 (snprintf 128 (procPath pid)) = some (zeroed 128 (procPath pid)) :=
    zeroed_append hshort
  have hrun : ∀ held, runningCpusetAnd fs held 128 recurse (zeroed 128 (procPath pid)) ∅ =
      some (zeroed 128 (procPath pid), ∅ ∪ (reached fs recurse (procPath pid)).toFinset.biUnion (added fs held)) :=
    fun held => runningCpusetAnd_eq recurse hpath hfit ∅
  have hwalk : ∀ held, procGetRunningCpuset fs held pid recurse =
      some (∅ ∪ (reached fs recurse (procPath pid)).toFinset.biUnion (added fs held)) := by
    intro held
    unfold procGetRunningCpuset
    simp only [hbuf, Option.bind_eq_bind, Option.bind_some, hrun held]
  constructor
  · intro h
    refine readsRunning_of_added fun held => ?_
    rw [Finset.empty_union (runningProcessors _ _ _), ← Option.some.inj ((hwalk held).symm.trans (h held))]
  · intro h held
    rw [hwalk held, added_of_readsRunning h held, Finset.empty_union]

end Walk

/-- A process with one more thread, 7. -/
def threadFs (process thread : StatAccess) : ProcFs where
  stat path :=
    if path = "/proc/42/stat".toList then process
    else if path = "/proc/42/task/7/stat".toList then thread
    else .missing
  entries path := if path = "/proc/42/task/".toList then some [['.'], ['.', '.'], ['7']] else none
  names path list h := by
    split_ifs at h
    rw [← Option.some.inj h]
    decide

/-- The file of a running task with the name `comm`, on processor 3. -/
def runningFile (comm : List Char) : StatFile :=
  { processFile comm 0 65536 with
    state := 'R'
    state_letter := by decide }

/-- A running thread of a process that cannot be read. -/
theorem added_thread :
    AddsRunning (threadFs .missing (.file (runningFile "cat".toList) (by decide))) 128 1 "/proc/42".toList ∅ := by
  refine (runningCpusetAnd_iff (by decide) (by decide) ∅).2.mpr ⟨?_, ?_⟩
  · rintro ⟨q, hq, hstray⟩
    have hread : ∀ q ∈ reached (threadFs .missing (.file (runningFile "cat".toList) (by decide))) 1 "/proc/42".toList,
        stray (threadFs .missing (.file (runningFile "cat".toList) (by decide))) q = false := by decide
    rw [hread q hq] at hstray
    cases hstray
  · rintro q hq f ⟨hlen, hstat, -⟩ hwhite
    rcases List.mem_cons.mp hq with rfl | hq
    · cases hstat
    · obtain rfl := List.mem_singleton.mp hq
      cases hstat
      exact absurd hwhite (by decide)

/-- A process that ends before it is read, and one whose name has a blank. -/
theorem not_added : ¬ AddsRunning (threadFs .ended .missing) 128 0 "/proc/42".toList ∅ ∧
    ¬ AddsRunning (threadFs (.file (runningFile "tmux: server".toList) (by decide)) .missing) 128 0
      "/proc/42".toList ∅ := by
  refine ⟨fun h => ?_, fun h => ?_⟩
  · have hread := (addsRunning_iff (by decide) (by decide) ∅).mp h
    have hzero := hread.stray ⟨_, List.mem_singleton_self _, rfl⟩ 0 (by decide)
    exact absurd hzero (by decide)
  · have hread := (addsRunning_iff (by decide) (by decide) ∅).mp h
    rcases hread.white _ (List.mem_singleton_self _) _ ⟨by decide, rfl, rfl⟩ rfl with
      hin | ⟨q, hq, f, ⟨hlen, hstat, -⟩, hwhite, -⟩
    · exact absurd hin (Finset.notMem_empty _)
    · obtain rfl := List.mem_singleton.mp hq
      cases hstat
      exact absurd hwhite (by decide)

end Proc
end Hmon
