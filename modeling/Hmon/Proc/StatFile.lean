import Hmon.Lib.Scanf
import Hmon.Proc.Basic

/-!
# The text of `/proc/<pid>/stat` (`lproc.c`, `proc.c`)

* `StatFile` : what the kernel prints; `StatFile.text` : the text;
* `procStatUpdateFile`, `readProcStats` : the two functions that scan it, with their formats;
* `procStatUpdateFile_eq` : behind a name without white space the values are at their places;
* `readProcStats_white` : behind another one the processor is not read;
* `Parsed` : the fields are stored under their names, and the state and the processor are returned;
* `parsed_of_readsBack`, `procStatParsed_iff` : **exactly when this is so**.
-/

namespace Hmon
namespace Proc
open Lib

/-! ## The file -/

/-- The fields of `/proc/<pid>/stat`, in their order. `comm` is printed in parentheses, with any characters. -/
structure StatFile where
  pid : Nat
  comm : List Char
  state : Char
  ppid : Int32
  pgrp : Int32
  session : Int32
  ttyNr : Int32
  tpgid : Int32
  flags : UInt32
  minFlt : UInt64
  cminFlt : UInt64
  majFlt : UInt64
  cmajFlt : UInt64
  utime : UInt64
  stime : UInt64
  cutime : Int64
  cstime : Int64
  priority : Int64
  nice : Int64
  numThreads : Nat
  itrealvalue : Int64
  startTime : UInt64
  vsize : UInt64
  rss : Nat
  rsslim : UInt64
  startcode : UInt64
  endcode : UInt64
  startstack : UInt64
  kstkesp : UInt64
  kstkeip : UInt64
  signal : UInt64
  blocked : UInt64
  sigignore : UInt64
  sigcatch : UInt64
  wchan : UInt64
  nswap : UInt64
  cnswap : UInt64
  exitSignal : Int32
  processor : Nat
  rtPriority : UInt32
  policy : UInt32
  blkioTicks : UInt64
  /-- The fields after these, or the end of the line. -/
  tail : List Char
  pid_lt : pid < 2 ^ 31
  state_letter : state.isAlpha = true
  numThreads_lt : numThreads < 2 ^ 31
  rss_lt : rss < 2 ^ 63
  processor_lt : processor < 2 ^ 31
  tail_blank : Blank tail

namespace StatFile

/-- The fields up to the processor, as printed. -/
def taskWords (f : StatFile) : List (List Char) :=
  [showInt f.pid, '(' :: (f.comm ++ [')']), [f.state], showInt f.ppid.toInt, showInt f.pgrp.toInt,
    showInt f.session.toInt, showInt f.ttyNr.toInt, showInt f.tpgid.toInt, showInt f.flags.toNat,
    showInt f.minFlt.toNat, showInt f.cminFlt.toNat, showInt f.majFlt.toNat, showInt f.cmajFlt.toNat,
    showInt f.utime.toNat, showInt f.stime.toNat, showInt f.cutime.toInt, showInt f.cstime.toInt,
    showInt f.priority.toInt, showInt f.nice.toInt, showInt f.numThreads, showInt f.itrealvalue.toInt,
    showInt f.startTime.toNat, showInt f.vsize.toNat, showInt f.rss, showInt f.rsslim.toNat,
    showInt f.startcode.toNat, showInt f.endcode.toNat, showInt f.startstack.toNat, showInt f.kstkesp.toNat,
    showInt f.kstkeip.toNat, showInt f.signal.toNat, showInt f.blocked.toNat, showInt f.sigignore.toNat,
    showInt f.sigcatch.toNat, showInt f.wchan.toNat, showInt f.nswap.toNat, showInt f.cnswap.toNat,
    showInt f.exitSignal.toInt, showInt f.processor]

def words (f : StatFile) : List (List Char) :=
  f.taskWords ++ [showInt f.rtPriority.toNat, showInt f.policy.toNat, showInt f.blkioTicks.toNat]

def text (f : StatFile) : List Char := unwords f.words ++ f.tail

end StatFile

/-! ## `proc_stat_update` -/

def statDirectives : List Directive :=
  [.store .d, .skip .s, .store .c, .skip .d, .skip .d, .skip .d, .skip .d, .skip .d, .skip .u,
    .store .lu, .store .lu, .store .lu, .store .lu, .store .lu, .store .lu, .store .ld, .store .ld,
    .skip .ld, .skip .ld, .store .ld, .skip .ld, .store .llu, .store .lu, .store .ld, .store .lu,
    .skip .lu, .skip .lu, .skip .lu, .skip .lu, .skip .lu, .skip .lu, .skip .lu, .skip .lu, .skip .lu, .skip .lu,
    .skip .lu, .skip .lu, .skip .d, .store .d, .skip .u, .skip .u, .store .llu]

/-- The members of `struct proc_stat` whose addresses are passed. -/
inductive StatField
  | pid
  | state
  | minFlt
  | cminFlt
  | majFlt
  | cmajFlt
  | utime
  | stime
  | numThreads
  | startTime
  | vsize
  | rss
  | rsslim
  | taskCpu
  | blkioTicks

/-- The arguments of the call: `utime` and `stime` twice. -/
def statArguments : List StatField :=
  [.pid, .state, .minFlt, .cminFlt, .majFlt, .cmajFlt, .utime, .stime, .utime, .stime, .numThreads, .startTime,
    .vsize, .rss, .rsslim, .taskCpu, .blkioTicks]

/-- A store through an argument. The eight bytes of a `long` stored at `rss` or `rsslim` reach into the next member. -/
def ProcStat.store (p : ProcStat) : StatField → Value → ProcStat
  | .pid, .num n => { p with pid := UInt32.ofInt n }
  | .state, .char c => { p with state := c.toUInt8 }
  | .minFlt, .num n => { p with minFlt := UInt64.ofInt n }
  | .cminFlt, .num n => { p with cminFlt := UInt64.ofInt n }
  | .majFlt, .num n => { p with majFlt := UInt64.ofInt n }
  | .cmajFlt, .num n => { p with cmajFlt := UInt64.ofInt n }
  | .utime, .num n => { p with utime := UInt64.ofInt n }
  | .stime, .num n => { p with stime := UInt64.ofInt n }
  | .numThreads, .num n => { p with numThreads := UInt64.ofInt n }
  | .startTime, .num n => { p with startTime := UInt64.ofInt n }
  | .vsize, .num n => { p with vsize := UInt64.ofInt n }
  | .rss, .num n => { p with rss := UInt32.ofInt n, rsslim := UInt32.ofInt (n / 2 ^ 32) }
  | .rsslim, .num n => { p with rsslim := UInt32.ofInt n, taskCpu := UInt32.ofInt (n / 2 ^ 32) }
  | .taskCpu, .num n => { p with taskCpu := UInt32.ofInt n }
  | .blkioTicks, .num n => { p with blkioTicks := UInt64.ofInt n }
  | _, _ => p

/-- `proc_stat_update` on the text of the file, `none` when it cannot be opened; `clock` is what `clock` returns. -/
def procStatUpdateFile (p : ProcStat) (file : Option (List Char)) (clock : UInt64) : Int × ProcStat :=
  match file with
  | none => (-1, p)
  | some text =>
    let r := scanf (spaced statDirectives) text
    let p := (statArguments.zip r.1).foldl (fun p w => p.store w.1 w.2) p
    (if scanfResult r = eof then -1 else 0, { p with timestamp := clock })

/-! ## `read_proc_stats` -/

def sleeping : Nat := 0
def running : Nat := 1

structure ProcTask where
  puNum : Int32
  state : Nat
  deriving DecidableEq

/-- The conversions between the state and the processor. -/
def taskSkips : List Conversion :=
  [.d, .d, .d, .d, .d, .u, .u, .u, .u, .u, .u, .u, .d, .d, .d, .d, .d, .d, .u, .u, .d, .u, .u, .u, .u, .u, .u, .u, .u,
    .u, .u, .u, .u, .u, .d]

def taskDirectives : List Directive :=
  [.skip .d, .skip .s, .store .c] ++ taskSkips.map .skip ++ [.store .d]

/-- `read_proc_stats` on the text of the file. `state` and `puNum` are its variables, which it does not initialise. -/
def readProcStats (pInfo : ProcTask) (state : Char) (puNum : UInt32) (file : Option (List Char)) : Int × ProcTask :=
  match file with
  | none => (-1, { pInfo with state := 0 })
  | some text =>
    let r := scanf (spaced taskDirectives) text
    let (state, puNum) := match r.1 with
      | [.char c, .num n] => (c, UInt32.ofInt n)
      | [.char c] => (c, puNum)
      | _ => (state, puNum)
    if scanfResult r = eof then (-1, pInfo)
    else (0, ⟨puNum.toInt32, if state ≠ 'R' then sleeping else running⟩)

/-! ## A name without white space -/

namespace StatFile
variable (f : StatFile)

/-- The values that are stored, in order. -/
def values : List Value :=
  [.num f.pid, .char f.state, .num f.minFlt.toNat, .num f.cminFlt.toNat, .num f.majFlt.toNat, .num f.cmajFlt.toNat,
    .num f.utime.toNat, .num f.stime.toNat, .num f.cutime.toInt, .num f.cstime.toInt, .num f.numThreads,
    .num f.startTime.toNat, .num f.vsize.toNat, .num f.rss, .num f.rsslim.toNat, .num f.processor,
    .num f.blkioTicks.toNat]

theorem foreign_state : Foreign f.state := by
  have hletter : (f.state.isUpper || f.state.isLower) = true := f.state_letter
  have hrange : 65 ≤ f.state.toNat := by
    rcases Bool.or_eq_true_iff.mp hletter with h | h
    · have hA : 'A'.val ≤ f.state.val := (of_decide_eq_true h).1
      exact UInt32.le_iff_toNat_le.mp hA
    · have ha : 'a'.val ≤ f.state.val := of_decide_eq_true (Bool.and_eq_true_iff.mp h).1
      exact Nat.le_trans (by decide) (UInt32.le_iff_toNat_le.mp ha)
  refine ⟨?_, ?_, ?_, ?_⟩
  · simp only [isspace, Bool.or_eq_false_iff, decide_eq_false_iff_not, Bool.and_eq_false_imp, decide_eq_true_eq]
    omega
  · simp only [Char.isDigit, Bool.and_eq_false_imp, decide_eq_true_eq, decide_eq_false_iff_not,
      UInt32.le_iff_toNat_le]
    intro _ h
    exact absurd (hrange.trans h) (by decide)
  · intro h
    rw [h] at hrange
    exact absurd hrange (by decide)
  · intro h
    rw [h] at hrange
    exact absurd hrange (by decide)

variable {f} (hcomm : ∀ x ∈ f.comm, isspace x = false)
include hcomm

theorem reads_comm : Reads .s ('(' :: (f.comm ++ [')'])) (.word ('(' :: (f.comm ++ [')']))) := by
  refine reads_word (List.forall_mem_cons.mpr ⟨by decide, List.forall_mem_append.mpr ⟨hcomm, ?_⟩⟩)
  exact List.forall_mem_singleton.mpr (by decide)

theorem reads : ReadsAll statDirectives f.words f.values := by
  have hpid : Reads .d (showInt f.pid) (.num f.pid) := reads_long (.inl rfl) (by have := f.pid_lt; omega)
  have hstate : Reads .c [f.state] (.char f.state) := reads_char f.foreign_state.solid
  have hulong : ∀ n : UInt64, Reads .lu (showInt n.toNat) (.num n.toNat) :=
    fun n => reads_ulong (.inr (.inl rfl)) n.toNat_lt
  have hllong : ∀ n : UInt64, Reads .llu (showInt n.toNat) (.num n.toNat) :=
    fun n => reads_ulong (.inr (.inr rfl)) n.toNat_lt
  have hlong : ∀ n : Int64, Reads .ld (showInt n.toInt) (.num n.toInt) :=
    fun n => reads_long (.inr rfl) ⟨n.le_toInt, n.toInt_lt⟩
  have hthreads : Reads .ld (showInt f.numThreads) (.num f.numThreads) :=
    reads_long (.inr rfl) (by have := f.numThreads_lt; omega)
  have hrss : Reads .ld (showInt f.rss) (.num f.rss) := reads_long (.inr rfl) (by have := f.rss_lt; omega)
  have hprocessor : Reads .d (showInt f.processor) (.num f.processor) :=
    reads_long (.inl rfl) (by have := f.processor_lt; omega)
  refine .store hpid <| .skip (reads_comm hcomm) <| .store hstate ?_
  iterate 6 refine .skip (reads_showInt rfl _) ?_
  iterate 6 refine .store (hulong _) ?_
  refine .store (hlong _) <| .store (hlong _) <| .skip (hlong _) <| .skip (hlong _) <| .store hthreads ?_
  refine .skip (hlong _) <| .store (hllong _) <| .store (hulong _) <| .store hrss <| .store (hulong _) ?_
  iterate 12 refine .skip (hulong _) ?_
  refine .skip (reads_showInt rfl _) <| .store hprocessor ?_
  exact .skip (reads_showInt rfl _) <| .skip (reads_showInt rfl _) <| .store (hllong _) .nil

theorem reads_task : ReadsAll taskDirectives f.taskWords [.char f.state, .num f.processor] := by
  have hprocessor : Reads .d (showInt f.processor) (.num f.processor) :=
    reads_long (.inl rfl) (by have := f.processor_lt; omega)
  refine .skip (reads_showInt rfl _) <| .skip (reads_comm hcomm) <| .store (reads_char f.foreign_state.solid) ?_
  iterate 35 refine .skip (reads_showInt rfl _) ?_
  exact .store hprocessor .nil

/-- The values as `fscanf` converts them. -/
def line (f : StatFile) : StatLine where
  pid := UInt32.ofNat f.pid
  state := f.state.toUInt8
  minFlt := f.minFlt
  cminFlt := f.cminFlt
  majFlt := f.majFlt
  cmajFlt := f.cmajFlt
  utime := f.utime
  stime := f.stime
  cutime := f.cutime.toUInt64
  cstime := f.cstime.toUInt64
  numThreads := UInt64.ofNat f.numThreads
  startTime := f.startTime
  vsize := f.vsize
  rss := UInt64.ofNat f.rss
  rsslim := f.rsslim
  taskCpu := UInt32.ofNat f.processor
  blkioTicks := f.blkioTicks

end StatFile

/-! ### Stored numbers -/

theorem ofInt_natCast (n : Nat) : UInt64.ofInt n = UInt64.ofNat n := by
  apply UInt64.toNat_inj.mp
  simp only [UInt64.ofInt, UInt64.toNat_ofNat']
  omega

theorem ofInt_natCast32 (n : Nat) : UInt32.ofInt n = UInt32.ofNat n := by
  apply UInt32.toNat_inj.mp
  simp only [UInt32.ofInt, UInt32.toNat_ofNat']
  omega

theorem ofInt_toInt (n : Int64) : UInt64.ofInt n.toInt = n.toUInt64 := by
  apply UInt64.toNat_inj.mp
  have hbits : (BitVec.ofInt 64 n.toBitVec.toInt).toNat = n.toBitVec.toNat := by rw [BitVec.ofInt_toInt]
  rw [BitVec.toNat_ofInt] at hbits
  simp only [UInt64.ofInt, UInt64.toNat_ofNat']
  rw [← Int64.toNat_toBitVec, ← hbits]
  exact Nat.mod_eq_of_lt (by omega)

/-- Behind a name without white space each value is at its place. -/
theorem procStatUpdateFile_eq {f : StatFile} (hcomm : ∀ x ∈ f.comm, isspace x = false) (p : ProcStat) {k : Kernel}
    (hk : k.stat = f.line) : procStatUpdateFile p (some f.text) k.clock = (0, procStatUpdate p k) := by
  have hscan : scanf (spaced statDirectives) f.text = (f.values, none) :=
    scanf_spaced (StatFile.reads hcomm) f.tail_blank
  have hrss : UInt32.ofNat f.rss = (UInt64.ofNat f.rss).toUInt32 := by
    apply UInt32.toNat_inj.mp
    simp only [UInt64.toNat_toUInt32, UInt32.toNat_ofNat', UInt64.toNat_ofNat']
    omega
  have hrsslim : UInt32.ofNat f.rsslim.toNat = f.rsslim.toUInt32 := by
    apply UInt32.toNat_inj.mp
    simp only [UInt64.toNat_toUInt32, UInt32.toNat_ofNat']
  have hret : scanfResult (f.values, none) ≠ eof := by
    rw [show scanfResult (f.values, none) = 17 from rfl]
    decide
  simp only [procStatUpdateFile, hscan, procStatUpdate, hk, if_neg hret]
  simp only [statArguments, StatFile.values, List.zip_cons_cons, List.zip_nil_left, List.foldl_cons, List.foldl_nil,
    ProcStat.store, ofInt_natCast, ofInt_natCast32, ofInt_toInt, UInt64.ofNat_toNat, hrss, hrsslim]
  rfl

theorem readProcStats_eq {f : StatFile} (hcomm : ∀ x ∈ f.comm, isspace x = false) (pInfo : ProcTask) (state : Char)
    (puNum : UInt32) : readProcStats pInfo state puNum (some f.text) =
      (0, ⟨(UInt32.ofNat f.processor).toInt32, if f.state = 'R' then running else sleeping⟩) := by
  have htext : f.text = unwords f.taskWords ++
      (blankWords [showInt f.rtPriority.toNat, showInt f.policy.toNat, showInt f.blkioTicks.toNat] ++ f.tail) := by
    have hne : f.taskWords ≠ [] := List.cons_ne_nil _ _
    rw [StatFile.text, StatFile.words, unwords_append hne, List.append_assoc]
  have hscan : scanf (spaced taskDirectives) f.text = ([.char f.state, .num f.processor], none) := by
    rw [htext]
    exact scanf_spaced (StatFile.reads_task hcomm) (blank_blankWords _ f.tail_blank)
  have hret : scanfResult ([.char f.state, .num f.processor], none) ≠ eof := by
    rw [show scanfResult ([.char f.state, .num f.processor], none) = 2 from rfl]
    decide
  simp only [readProcStats, hscan, if_neg hret, ofInt_natCast32, ne_eq, ite_not]

/-! ## A name with white space -/

/-- What `%c` reads for a name with white space: the next character behind the first white space, or the parenthesis. -/
def afterWhite (comm : List Char) : Char := (dropWhite (comm.dropWhile fun y => !isspace y)).headD ')'

/-- The scan of `read_proc_stats` gets past the first white space of the name and looks for the state there. -/
theorem taskScan_name {f : StatFile} {x : Char} (hx : x ∈ f.comm) (hspace : isspace x = true) :
    ∃ more, scanf (spaced taskDirectives) f.text =
      scanf (.store .c :: (blanked (taskSkips.map .skip) ++ [.white, .store .d]))
        (dropWhite (f.comm.dropWhile fun y => !isspace y) ++ ')' :: ([' '] ++ f.state :: more)) := by
  obtain ⟨b, t, r, ht, hb, hcomm, -⟩ := List.exists_of_eraseP hx hspace
  have ht : ∀ y ∈ t, isspace y = false := fun y hy => Bool.eq_false_iff.mpr (ht y hy)
  have htail : dropWhite (f.comm.dropWhile fun y => !isspace y) = dropWhite r := by
    have hkeep : ∀ y ∈ t, (!isspace y) = true := fun y hy => by rw [ht y hy]; rfl
    rw [hcomm, List.dropWhile_append_of_pos hkeep, List.dropWhile_cons_of_neg (by rw [hb]; decide)]
    exact List.dropWhile_cons_of_pos hb
  obtain ⟨more, htext⟩ : ∃ more, f.text = showInt f.pid ++ (' ' :: ('(' :: t ++
      b :: (r ++ ')' :: ([' '] ++ f.state :: more)))) := by
    refine ⟨blankWords (f.words.drop 3) ++ f.tail, ?_⟩
    simp [StatFile.text, StatFile.words, StatFile.taskWords, unwords, blankWords, hcomm]
  have hformat : spaced taskDirectives = .skip .d :: .white :: .skip .s :: .white :: .store .c ::
      (blanked (taskSkips.map .skip) ++ [.white, .store .d]) := rfl
  have hblank : ∀ (y : Char) (u : List Char), isspace y = true → Blank (y :: u) := by
    intro y u hy z hz
    obtain rfl := Option.some.inj hz
    exact hy
  have hpid := fun u => (reads_showInt (k := .d) rfl f.pid).read (' ' :: u) (hblank _ u rfl)
  have hopen : ∀ u, dropWhite (' ' :: ('(' :: t ++ u)) = '(' :: t ++ u :=
    fun u => dropWhite_solid (show isspace '(' = false by decide) (t ++ u)
  have hname : ∀ y ∈ '(' :: t, isspace y = false := List.forall_mem_cons.mpr ⟨by decide, ht⟩
  have hword := fun u => (reads_word hname).read (b :: u) (hblank _ u hb)
  have hdrop : dropWhite (b :: (r ++ ')' :: ([' '] ++ f.state :: more))) =
      dropWhite r ++ ')' :: ([' '] ++ f.state :: more) :=
    (List.dropWhile_cons_of_pos hb).trans (takeWhile_dropWhile_foreign (by decide) r _).2
  refine ⟨more, ?_⟩
  rw [htext, hformat, htail]
  simp only [scanf, hpid, hopen, hword, hdrop]

/-- The scan of `read_proc_stats` ends in the name, or at the state behind its last parenthesis. -/
theorem taskScan_white {f : StatFile} {x : Char} (hx : x ∈ f.comm) (hspace : isspace x = true)
    (hlen : f.comm.length < 64) : (scanf (spaced taskDirectives) f.text).1 = [.char (afterWhite f.comm)] := by
  obtain ⟨more, hscan⟩ := taskScan_name hx hspace
  have hnumeric : ∀ k ∈ taskSkips, k.numeric = true := by decide
  have hparen : Foreign ')' := ⟨by decide, by decide, by decide, by decide⟩
  rw [hscan, afterWhite]
  cases hr : dropWhite (f.comm.dropWhile fun y => !isspace y) with
  | nil =>
    -- the parenthesis is the state, and the state is no number
    simp only [scanf, List.nil_append, Conversion.read, List.headD_nil]
    rw [scanf_numbers hnumeric f.foreign_state (u := [' ']) (by decide)]
  | cons c r =>
    have hshort : r.length + 1 ≤ f.comm.length := by
      have hle := (List.length_dropWhile_le isspace _).trans (List.length_dropWhile_le (fun y => !isspace y) f.comm)
      rw [show List.dropWhile isspace (f.comm.dropWhile fun y => !isspace y) = c :: r from hr] at hle
      exact hle
    have hskips : taskSkips.length = 35 := rfl
    simp only [scanf, List.cons_append, Conversion.read, List.headD_cons]
    rw [scanf_numbers hnumeric hparen (by have := lead_le r; omega)]

/-- Then the returned processor is what the variable held. -/
theorem readProcStats_white {f : StatFile} {x : Char} (hx : x ∈ f.comm) (hspace : isspace x = true)
    (hlen : f.comm.length < 64) (pInfo : ProcTask) (state : Char) (puNum : UInt32) :
    readProcStats pInfo state puNum (some f.text) =
      (0, ⟨puNum.toInt32, if afterWhite f.comm = 'R' then running else sleeping⟩) := by
  have hc := taskScan_white hx hspace hlen
  have hret : scanfResult (scanf (spaced taskDirectives) f.text) ≠ eof := by
    rw [scanfResult, hc, if_neg (fun h => List.cons_ne_nil _ _ h.1)]
    show (1 : Int) ≠ eof
    decide
  simp only [readProcStats, hc, if_neg hret, ne_eq, ite_not]

/-! ## Field for field -/

/-- The record has the values of the file under their names. -/
structure Stored (f : StatFile) (p : ProcStat) : Prop where
  minFlt : p.minFlt = f.minFlt
  cminFlt : p.cminFlt = f.cminFlt
  majFlt : p.majFlt = f.majFlt
  cmajFlt : p.cmajFlt = f.cmajFlt
  utime : p.utime = f.utime
  stime : p.stime = f.stime
  cutime : p.cutime = f.cutime
  cstime : p.cstime = f.cstime
  numThreads : p.numThreads.toNat = f.numThreads
  startTime : p.startTime = f.startTime
  vsize : p.vsize = f.vsize
  rss : p.rss.toNat = f.rss
  rsslim : p.rsslim.toNat = f.rsslim.toNat
  processor : p.taskCpu.toNat = f.processor
  blkioTicks : p.blkioTicks = f.blkioTicks

/-- `proc_stat_update` stores the fields, and `read_proc_stats` returns the state and the processor, whatever its
variables hold. -/
structure Parsed (f : StatFile) (p : ProcStat) (clock : UInt64) : Prop where
  stored : Stored f (procStatUpdateFile p (some f.text) clock).2
  state : ∀ pInfo state puNum,
    (readProcStats pInfo state puNum (some f.text)).2.state = if f.state = 'R' then running else sleeping
  processor : ∀ pInfo state puNum, (readProcStats pInfo state puNum (some f.text)).2.puNum.toInt = f.processor

/-- The name has no white space, the times of the process are those of its children, which the record has already, and
the sizes fit 32 bits. -/
structure ReadsBack (f : StatFile) (p : ProcStat) : Prop where
  comm : ∀ x ∈ f.comm, isspace x = false
  utime : f.cutime.toUInt64 = f.utime
  stime : f.cstime.toUInt64 = f.stime
  cutime : p.cutime = f.cutime
  cstime : p.cstime = f.cstime
  rss : f.rss < 2 ^ 32
  rsslim : f.rsslim.toNat < 2 ^ 32

section Parsed
variable {f : StatFile} {p : ProcStat}

/-- Behind a name without white space all but the times and the sizes are right. -/
theorem stored_iff (hcomm : ∀ x ∈ f.comm, isspace x = false) (p : ProcStat) (clock : UInt64) :
    Stored f (procStatUpdateFile p (some f.text) clock).2 ↔ ReadsBack f p := by
  let k : Kernel := ⟨f.line, clock, fun _ => ⟨0, 0, 0, 0, 0, 0, 0⟩, fun _ => ⟨0, 0, 0⟩, fun _ => ⟨0, 0⟩⟩
  have hfile : procStatUpdateFile p (some f.text) clock = (0, procStatUpdate p k) :=
    procStatUpdateFile_eq hcomm p (k := k) rfl
  rw [hfile]
  have hrss : (UInt64.ofNat f.rss).toUInt32.toNat = f.rss % 2 ^ 32 := by
    rw [UInt64.toNat_toUInt32, UInt64.toNat_ofNat']
    omega
  have hrsslim : f.rsslim.toUInt32.toNat = f.rsslim.toNat % 2 ^ 32 := UInt64.toNat_toUInt32 _
  constructor
  · intro h
    have hsize := h.rss
    have hlimit := h.rsslim
    refine ⟨hcomm, h.utime, h.stime, h.cutime, h.cstime, ?_, ?_⟩
    · rw [← hsize]
      exact UInt32.toNat_lt _
    · rw [← hlimit]
      exact UInt32.toNat_lt _
  · intro h
    have hthreads := f.numThreads_lt
    have hprocessor := f.processor_lt
    refine ⟨rfl, rfl, rfl, rfl, h.utime, h.stime, h.cutime, h.cstime, ?_, rfl, rfl, ?_, ?_, ?_, rfl⟩
    · show (UInt64.ofNat f.numThreads).toNat = f.numThreads
      rw [UInt64.toNat_ofNat']
      omega
    · exact hrss.trans (Nat.mod_eq_of_lt h.rss)
    · exact hrsslim.trans (Nat.mod_eq_of_lt h.rsslim)
    · show (UInt32.ofNat f.processor).toNat = f.processor
      rw [UInt32.toNat_ofNat']
      omega

theorem toInt_processor (f : StatFile) : (UInt32.ofNat f.processor).toInt32.toInt = f.processor := by
  have hlt := f.processor_lt
  have hnat : (UInt32.ofNat f.processor).toBitVec.toNat = f.processor := by
    rw [UInt32.toNat_toBitVec, UInt32.toNat_ofNat']
    omega
  show (UInt32.ofNat f.processor).toBitVec.toInt = f.processor
  rw [BitVec.toInt_eq_toNat_of_lt (by omega), hnat]

/-- **The fields of `/proc/<pid>/stat` are stored under their names, and the state and the processor are returned, when
the name has no white space, the times are those of the children that the record has, and the sizes fit 32 bits; for
the names of fewer than 64 characters that the kernel prints, only then.** -/
theorem procStatParsed_iff (f : StatFile) (p : ProcStat) (clock : UInt64) :
    (ReadsBack f p → Parsed f p clock) ∧ (f.comm.length < 64 → Parsed f p clock → ReadsBack f p) := by
  refine ⟨fun h => ⟨(stored_iff h.comm p clock).mpr h, ?_, ?_⟩, fun hlen h => ?_⟩
  · intro pInfo state puNum
    rw [readProcStats_eq h.comm]
  · intro pInfo state puNum
    rw [readProcStats_eq h.comm]
    exact toInt_processor f
  · by_cases hcomm : ∀ x ∈ f.comm, isspace x = false
    · exact (stored_iff hcomm p clock).mp h.stored
    · -- another value of the variable is another processor
      push Not at hcomm
      obtain ⟨x, hx, hspace⟩ := hcomm
      have hspace : isspace x = true := Bool.ne_false_iff.mp hspace
      have hreturned : ∀ puNum : UInt32, puNum.toInt32.toInt = f.processor := by
        intro puNum
        have hpu := h.processor ⟨0, 0⟩ 'R' puNum
        rwa [readProcStats_white hx hspace hlen] at hpu
      exact absurd ((hreturned 0).trans (hreturned 1).symm) (by decide)

end Parsed

/-- The file of a process with the name `comm` and the given times and limit, on processor 3. -/
def processFile (comm : List Char) (utime : UInt64) (rsslim : UInt64) : StatFile where
  pid := 42
  comm := comm
  state := 'S'
  ppid := 1
  pgrp := 42
  session := 42
  ttyNr := 0
  tpgid := -1
  flags := 4194304
  minFlt := 100
  cminFlt := 0
  majFlt := 2
  cmajFlt := 0
  utime := utime
  stime := 0
  cutime := 0
  cstime := 0
  priority := 20
  nice := 0
  numThreads := 1
  itrealvalue := 0
  startTime := 5000
  vsize := 4096000
  rss := 250
  rsslim := rsslim
  startcode := 1
  endcode := 1
  startstack := 0
  kstkesp := 0
  kstkeip := 0
  signal := 0
  blocked := 0
  sigignore := 0
  sigcatch := 0
  wchan := 0
  nswap := 0
  cnswap := 0
  exitSignal := 17
  processor := 3
  rtPriority := 0
  policy := 0
  blkioTicks := 7
  tail := ['\n']
  pid_lt := by decide
  state_letter := by decide
  numThreads_lt := by decide
  rss_lt := by decide
  processor_lt := by decide
  tail_blank := by
    intro x hx
    obtain rfl := Option.some.inj hx
    rfl

/-- The record of a process that `new_proc_stat` returns. -/
def newRecord : ProcStat := (newProcStat (V := ℚ) 42 fun _ => 0).fields

/-- A process that has not run yet and has no large limit. -/
theorem parsed_idle : Parsed (processFile ['c', 'a', 't'] 0 65536) newRecord 0 :=
  (procStatParsed_iff _ newRecord 0).1 ⟨by decide, rfl, rfl, rfl, rfl, by decide, by decide⟩

/-- A process that has run for 5 ticks, and one whose name has a blank. -/
theorem not_parsed : ¬ Parsed (processFile ['c', 'a', 't'] 5 65536) newRecord 0 ∧
    ¬ Parsed (processFile ['a', ' ', 'b'] 0 65536) newRecord 0 := by
  refine ⟨fun h => ?_, fun h => ?_⟩
  · have hread := (stored_iff (by decide) newRecord 0).mp h.stored
    exact absurd hread.utime (by decide)
  · have hreturned : ∀ puNum : UInt32, puNum.toInt32.toInt = 3 := by
      intro puNum
      have hpu := h.processor ⟨0, 0⟩ 'R' puNum
      rwa [readProcStats_white (x := ' ') (by decide) rfl (by decide)] at hpu
    exact absurd (hreturned 0) (by decide)

end Proc
end Hmon
