import Hmon.Lib.Scanf
import Hmon.Lib.Loops
import Hmon.Proc.Basic

/-!
# The search for a processor (`proc_cpu_update` in `lproc.c`)

* `StatText` : the text of `/proc/stat`; `StatText.line` : the counters of a processor, or of the whole system;
* `CpuScan`, `CpuScan.step` : the loop; behind the end of the file it scans whatever `getline` left in its buffer;
* `SelectsLine` : it ends with the requested counters;
* `selects_iff` : **it does, whatever is in the buffers, exactly when the line is there and the aggregate line is not
  taken for it**; for the whole system the loop does not run.
-/

namespace Hmon
namespace Proc
open Lib

/-! ## The file -/

/-- Words of counters. -/
def counterWords (counters : List UInt64) : List (List Char) := counters.map fun c => showInt (c.toNat : Int)

/-- `cpu  1 2 3 ..` -/
def aggregateLine (counters : List UInt64) : List Char :=
  "cpu".toList ++ ' ' :: blankWords (counterWords counters) ++ ['\n']

/-- `cpuN 1 2 3 ..` -/
def cpuLine (number : Nat) (counters : List UInt64) : List Char :=
  "cpu".toList ++ unwords (showInt (number : Int) :: counterWords counters) ++ ['\n']

/-- The aggregate line, the lines of the processors, and the others without their line ends. -/
structure StatText where
  aggregate : List UInt64
  cpus : List (Nat × List UInt64)
  others : List (List Char)
  aggregate_length : 7 ≤ aggregate.length
  cpus_int : ∀ cpu ∈ cpus, cpu.1 < 2 ^ 31
  cpus_length : ∀ cpu ∈ cpus, 7 ≤ cpu.2.length
  others_cpu : ∀ text ∈ others, ¬ "cpu".toList <+: text

namespace StatText

def lines (file : StatText) : List (List Char) :=
  aggregateLine file.aggregate :: (file.cpus.map fun cpu => cpuLine cpu.1 cpu.2) ++ file.others.map (· ++ ['\n'])

/-- The counters of the requested line; -1 stands for the whole system. -/
def line (file : StatText) (cpu : Int) : Option (List UInt64) :=
  if cpu = -1 then some file.aggregate
  else (file.cpus.find? fun l => (l.1 : Int) = cpu).map Prod.snd

end StatText

/-! ## The loop -/

/-- The fields from `user` on, as far as there are counters for them. -/
def ProcCpu.fill (p : ProcCpu) (counters : List UInt64) : ProcCpu :=
  ⟨p.cpu, counters.getD 0 p.user, counters.getD 1 p.nice, counters.getD 2 p.system, counters.getD 3 p.idle,
    counters.getD 4 p.iowait, counters.getD 5 p.irq, counters.getD 6 p.softirq⟩

/-- A value as `int` and as `unsigned long`. -/
def intValue : Value → Int
  | .num n => n.bmod (2 ^ 32)
  | _ => 0

def ulongValue : Value → UInt64
  | .num n => UInt64.ofNat n.toNat
  | _ => 0

/-- `%d` and seven `%lu`, behind `cpu`. -/
def cpuFormat : List Directive := .store .d :: List.replicate 7 (.store .lu)

structure CpuScan where
  /-- What `getline` still returns. -/
  lines : List (List Char)
  /-- The calls of `getline` at the end of the file. -/
  reads : Nat
  cpuNum : Int
  ret : Int
  p : ProcCpu

namespace CpuScan

/-- `cpu_num != p->cpu && ret != EOF` -/
def go (s : CpuScan) : Bool := s.cpuNum ≠ s.p.cpu && s.ret ≠ eof

/-- The `sscanf` of a line. -/
def sscanf (s : CpuScan) (line : List Char) : CpuScan :=
  let r := scanfLiteral "cpu".toList (spaced cpuFormat) line
  { s with
    cpuNum := r.1.head?.elim s.cpuNum intValue
    p := s.p.fill (r.1.tail.map ulongValue)
    ret := scanfResult r }

/-- `garbage` is what the buffers of `getline` contain that nothing was read into. -/
def step (garbage : Nat → List Char) (s : CpuScan) : CpuScan :=
  match s.lines with
  | line :: lines => { s.sscanf line with lines := lines }
  | [] => { s.sscanf (garbage s.reads) with reads := s.reads + 1 }

/-- Before the loop. -/
def start (lines : List (List Char)) (p : ProcCpu) : CpuScan := ⟨lines, 0, -1, 0, p⟩

end CpuScan

/-- `proc_cpu_update` ends, with the requested counters, or with the record that it was called with if there are
none. -/
def SelectsLine (garbage : Nat → List Char) (file : StatText) (p : ProcCpu) : Prop :=
  ∃ s, Ends CpuScan.go (CpuScan.step garbage) (.start file.lines p) s ∧ s.p = (file.line p.cpu).elim p p.fill

/-! ## One line -/

section Line
variable {counters : List UInt64}

theorem readsAll_counters (counters : List UInt64) :
    ReadsAll (List.replicate counters.length (.store .lu)) (counterWords counters)
      (counters.map fun c => .num c.toNat) := by
  induction counters with
  | nil => exact .nil
  | cons c counters ih => exact .store (reads_ulong (.inr (.inl rfl)) c.toNat_lt) ih

theorem blank_newline : Blank ['\n'] := by
  intro x hx
  obtain rfl := Option.some.inj hx
  rfl

/-- Directives behind the words, or words behind the directives. -/
theorem scanf_beyond (counters : List UInt64) :
    (scanf (blanked (List.replicate (7 - (counters.take 7).length) (.store .lu)))
      (blankWords (counterWords (counters.drop 7)) ++ ['\n'])).1 = [] := by
  by_cases h : 7 ≤ counters.length
  · rw [List.length_take, min_eq_left h]
    rfl
  · rw [List.drop_of_length_le (by omega)]
    cases 7 - (counters.take 7).length with
    | zero => rfl
    | succ n => rfl

/-- A number and the counters behind it, as far as there are directives. -/
theorem scanf_cpuFormat (number : Int) (counters : List UInt64) :
    (scanf (spaced cpuFormat) (unwords (showInt number :: counterWords counters) ++ ['\n'])).1 =
      .num (strtol (decide (number < 0)) number.natAbs) :: (counters.take 7).map fun c => .num c.toNat := by
  have hformat : List.replicate 7 (.store .lu) = List.replicate (counters.take 7).length (Directive.store .lu) ++
      List.replicate (7 - (counters.take 7).length) (.store .lu) := by
    rw [← List.replicate_add]
    congr 1
    have := List.length_take_le 7 counters
    omega
  have hwords : blankWords (counterWords counters) ++ ['\n'] = blankWords (counterWords (counters.take 7)) ++
      (blankWords (counterWords (counters.drop 7)) ++ ['\n']) := by
    rw [← List.append_assoc, blankWords, blankWords, blankWords, ← List.flatMap_append, counterWords, counterWords,
      counterWords, ← List.map_append, List.take_append_drop]
  have hread := (reads_showInt (k := .d) rfl number).read _
    (blank_blankWords (counterWords counters) blank_newline)
  have hrest := scanf_blanked_append (readsAll_counters (counters.take 7))
    (List.replicate (7 - (counters.take 7).length) (.store .lu))
    (blank_blankWords (counterWords (counters.drop 7)) blank_newline)
  rw [← hformat, ← hwords] at hrest
  show (scanf (.store .d :: blanked (List.replicate 7 (.store .lu)))
    (showInt number ++ blankWords (counterWords counters) ++ ['\n'])).1 = _
  rw [List.append_assoc, scanf, hread]
  simp only [hrest, scanf_beyond, List.append_nil]
  rfl

theorem scanfResult_ne_eof {r : List Value × Option Lib.Failure} (h : r.1 ≠ []) : scanfResult r ≠ eof := by
  unfold scanfResult
  rw [if_neg fun hr => h hr.1]
  unfold eof
  omega

theorem ulongValues (counters : List UInt64) :
    (counters.map fun c => Value.num (c.toNat : Int)).map ulongValue = counters := by
  rw [List.map_map]
  refine (List.map_congr_left fun c _ => ?_).trans (List.map_id counters)
  show UInt64.ofNat (c.toNat : Int).toNat = c
  rw [Int.toNat_natCast, UInt64.ofNat_toNat]

theorem ProcCpu.fill_take (p : ProcCpu) (counters : List UInt64) : p.fill (counters.take 7) = p.fill counters := by
  have hget : ∀ i < 7, ∀ d, (counters.take 7).getD i d = counters.getD i d := by
    intro i hi d
    rw [List.getD_eq_getElem?_getD, List.getD_eq_getElem?_getD, List.getElem?_take_of_lt hi]
  unfold ProcCpu.fill
  rw [hget 0 (by decide), hget 1 (by decide), hget 2 (by decide), hget 3 (by decide), hget 4 (by decide),
    hget 5 (by decide), hget 6 (by decide)]

/-- A line with seven counters leaves nothing of an earlier one. -/
theorem ProcCpu.fill_fill (p : ProcCpu) (earlier : List UInt64) (h : 7 ≤ counters.length) :
    (p.fill earlier).fill counters = p.fill counters := by
  have hget : ∀ i < 7, ∀ d d', counters.getD i d = counters.getD i d' := by
    intro i hi d d'
    have hi : i < counters.length := by omega
    rw [List.getD_eq_getElem?_getD, List.getD_eq_getElem?_getD, List.getElem?_eq_getElem hi, Option.getD_some,
      Option.getD_some]
  unfold ProcCpu.fill
  rw [hget 0 (by decide) _ p.user, hget 1 (by decide) _ p.nice, hget 2 (by decide) _ p.system,
    hget 3 (by decide) _ p.idle, hget 4 (by decide) _ p.iowait, hget 5 (by decide) _ p.irq,
    hget 6 (by decide) _ p.softirq]

/-- A number and counters behind `cpu`. -/
theorem sscanf_counters (s : CpuScan) {line : List Char} (number : Int)
    (h : scanfLiteral "cpu".toList (spaced cpuFormat) line =
      scanf (spaced cpuFormat) (unwords (showInt number :: counterWords counters) ++ ['\n'])) :
    ∃ ret, ret ≠ eof ∧ s.sscanf line =
      { s with
        cpuNum := (strtol (decide (number < 0)) number.natAbs).bmod (2 ^ 32)
        p := s.p.fill counters
        ret := ret } := by
  have hvalues := scanf_cpuFormat number counters
  refine ⟨_, scanfResult_ne_eof (by rw [hvalues]; exact List.cons_ne_nil _ _), ?_⟩
  unfold CpuScan.sscanf
  simp only [h, hvalues, List.head?_cons, Option.elim_some, List.tail_cons, ulongValues, ProcCpu.fill_take, intValue]

theorem sscanf_cpuLine (s : CpuScan) {number : Nat} (h : number < 2 ^ 31) (counters : List UInt64) :
    ∃ ret, ret ≠ eof ∧ s.sscanf (cpuLine number counters) =
      { s with cpuNum := number, p := s.p.fill counters, ret := ret } := by
  have hliteral : scanfLiteral "cpu".toList (spaced cpuFormat) (cpuLine number counters) =
      scanf (spaced cpuFormat) (unwords (showInt (number : Int) :: counterWords counters) ++ ['\n']) := by
    rw [cpuLine, List.append_assoc]
    exact scanfLiteral_append _ _ _
  have hint : (strtol (decide ((number : Int) < 0)) (number : Int).natAbs).bmod (2 ^ 32) = number := by
    rw [decide_eq_false (by omega), Int.natAbs_natCast, strtol, if_neg Bool.false_ne_true, min_eq_left (by omega),
      Int.bmod_eq_of_le (by omega) (by omega)]
  have hread := sscanf_counters s number hliteral
  rwa [hint] at hread

/-- What `%d` stores for a counter. -/
def asInt (counter : UInt64) : Int := ((min counter.toNat (2 ^ 63 - 1) : Nat) : Int).bmod (2 ^ 32)

/-- The aggregate line is taken for the line of a processor: its first counter is the number. -/
theorem sscanf_aggregateLine (s : CpuScan) (counter : UInt64) (counters : List UInt64) :
    ∃ ret, ret ≠ eof ∧ s.sscanf (aggregateLine (counter :: counters)) =
      { s with cpuNum := asInt counter, p := s.p.fill counters, ret := ret } := by
  have hliteral : scanfLiteral "cpu".toList (spaced cpuFormat) (aggregateLine (counter :: counters)) =
      scanf (spaced cpuFormat) (unwords (showInt (counter.toNat : Int) :: counterWords counters) ++ ['\n']) := by
    rw [aggregateLine, List.append_assoc, scanfLiteral_append]
    exact (scanf_store_white rfl rfl _ _).trans (scanf_store_white rfl rfl _ _)
  have hread := sscanf_counters s counter.toNat hliteral
  rw [decide_eq_false (by omega), Int.natAbs_natCast, strtol, if_neg Bool.false_ne_true] at hread
  exact hread

theorem sscanf_other (s : CpuScan) {text : List Char} (h : ¬ "cpu".toList <+: text) :
    s.sscanf (text ++ ['\n']) = { s with ret := 0 } := by
  unfold CpuScan.sscanf
  rw [scanfLiteral_mismatch (by decide) _ h]
  rfl

end Line

/-! ## The loop over the lines -/

section Loop
variable {garbage : Nat → List Char} {s : CpuScan} {p : ProcCpu} {cpus : List (Nat × List UInt64)}

theorem CpuScan.go_iff : s.go = true ↔ s.cpuNum ≠ s.p.cpu ∧ s.ret ≠ eof := by
  unfold CpuScan.go
  rw [Bool.and_eq_true, decide_eq_true_eq, decide_eq_true_eq]

variable (garbage) in
theorem step_cpuLine {number : Nat} (h : number < 2 ^ 31) (counters : List UInt64) (lines : List (List Char))
    (reads : Nat) (num ret : Int) (p : ProcCpu) :
    ∃ r, r ≠ eof ∧ CpuScan.step garbage ⟨cpuLine number counters :: lines, reads, num, ret, p⟩ =
      ⟨lines, reads, number, r, p.fill counters⟩ := by
  obtain ⟨r, hr, hread⟩ := sscanf_cpuLine ⟨cpuLine number counters :: lines, reads, num, ret, p⟩ h counters
  refine ⟨r, hr, ?_⟩
  unfold CpuScan.step
  simp only [hread]

theorem step_aggregateLine (counter : UInt64) (counters : List UInt64) (lines : List (List Char)) (p : ProcCpu) :
    ∃ r, r ≠ eof ∧ ∀ garbage, CpuScan.step garbage (.start (aggregateLine (counter :: counters) :: lines) p) =
      ⟨lines, 0, asInt counter, r, p.fill counters⟩ := by
  obtain ⟨r, hr, hread⟩ :=
    sscanf_aggregateLine (.start (aggregateLine (counter :: counters) :: lines) p) counter counters
  refine ⟨r, hr, fun garbage => ?_⟩
  unfold CpuScan.step CpuScan.start at *
  simp only [hread]

theorem CpuScan.stop_of_found (h : s.cpuNum = s.p.cpu) : s.go = false := by
  rw [← Bool.not_eq_true, go_iff]
  exact fun hgo => hgo.1 h

variable (garbage) in
/-- The lines of the processors, up to the one that is searched. -/
theorem ends_found (rest : List (List Char)) (reads : Nat) {l : Nat × List UInt64}
    (hint : ∀ cpu ∈ cpus, cpu.1 < 2 ^ 31) (hlength : ∀ cpu ∈ cpus, 7 ≤ cpu.2.length)
    (hfind : cpus.find? (fun l => (l.1 : Int) = p.cpu) = some l) {num ret : Int} (hnum : num ≠ p.cpu)
    (hret : ret ≠ eof) :
    ∃ s, Ends CpuScan.go (CpuScan.step garbage)
      ⟨(cpus.map fun cpu => cpuLine cpu.1 cpu.2) ++ rest, reads, num, ret, p⟩ s ∧ s.p = p.fill l.2 := by
  induction cpus generalizing num ret p with
  | nil => cases hfind
  | cons c cpus ih =>
    obtain ⟨hc, hint'⟩ := List.forall_mem_cons.mp hint
    obtain ⟨hc', hlength'⟩ := List.forall_mem_cons.mp hlength
    obtain ⟨r, hr, hstep⟩ := step_cpuLine garbage hc c.2
      ((cpus.map fun cpu => cpuLine cpu.1 cpu.2) ++ rest) reads num ret p
    rw [List.map_cons, List.cons_append]
    have hgo (lines : List (List Char)) : CpuScan.go ⟨lines, reads, num, ret, p⟩ = true :=
      CpuScan.go_iff.mpr ⟨hnum, hret⟩
    simp only [Ends.iff_of_go (hgo _), hstep]
    by_cases hfound : (c.1 : Int) = p.cpu
    · rw [List.find?_cons_of_pos (by simpa using hfound)] at hfind
      obtain rfl := Option.some.inj hfind
      exact ⟨_, (Ends.iff_of_stop (CpuScan.stop_of_found hfound)).mpr rfl, rfl⟩
    · rw [List.find?_cons_of_neg (by simpa using hfound)] at hfind
      obtain ⟨t, ht, hp⟩ := ih (p := p.fill c.2) hint' hlength' hfind hfound hr
      refine ⟨t, ht, hp.trans (p.fill_fill c.2 (hlength' l (List.mem_of_find?_eq_some hfind)))⟩

/-- A line that does not end the search for a processor. -/
def Passes (cpu : Int) (line : List Char) : Prop :=
  (∃ number counters, line = cpuLine number counters ∧ number < 2 ^ 31 ∧ (number : Int) ≠ cpu) ∨
    ∃ text, line = text ++ ['\n'] ∧ ¬ "cpu".toList <+: text

/-- The search that never ends. -/
structure Searching (cpu : Int) (s : CpuScan) : Prop where
  requested : s.p.cpu = cpu
  cpuNum : s.cpuNum ≠ cpu
  ret : s.ret ≠ eof
  lines : ∀ line ∈ s.lines, Passes cpu line

/-- Buffers that begin with another letter keep it going. -/
theorem Searching.step {cpu : Int} (h : Searching cpu s) : Searching cpu (s.step fun _ => ['x']) := by
  obtain ⟨lines, reads, num, ret, p⟩ := s
  have hzero : (0 : Int) ≠ eof := by decide
  cases lines with
  | nil => exact ⟨h.requested, h.cpuNum, hzero, h.lines⟩
  | cons line lines =>
    have hlines : ∀ line ∈ lines, Passes cpu line := fun l hl => h.lines l (List.mem_cons_of_mem _ hl)
    rcases h.lines line List.mem_cons_self with ⟨number, counters, rfl, hint, hnumber⟩ | ⟨text, rfl, htext⟩
    · obtain ⟨r, hr, hstep⟩ := step_cpuLine (fun _ => ['x']) hint counters lines reads num ret p
      rw [hstep]
      exact ⟨h.requested, hnumber, hr, hlines⟩
    · unfold CpuScan.step
      simp only [sscanf_other _ htext]
      exact ⟨h.requested, h.cpuNum, hzero, hlines⟩

theorem Searching.not_ends {cpu : Int} (h : Searching cpu s) {t : CpuScan} :
    ¬ Ends CpuScan.go (CpuScan.step fun _ => ['x']) s t := by
  refine Lib.not_ends (I := Searching cpu) (fun s hs => CpuScan.go_iff.mpr ⟨?_, hs.ret⟩) (fun s hs => hs.step) h
  rw [hs.requested]
  exact hs.cpuNum

end Loop

/-! ## The whole file -/

section File
variable {file : StatText} {p : ProcCpu}

theorem StatText.line_cpu (h : p.cpu ≠ -1) :
    file.line p.cpu = (file.cpus.find? fun l => (l.1 : Int) = p.cpu).map Prod.snd := if_neg h

/-- For the whole system the loop does not run. -/
theorem selects_system (h : p.cpu = -1) {garbage : Nat → List Char} :
    SelectsLine garbage file p ↔ p.fill file.aggregate = p := by
  have hstop : (CpuScan.start file.lines p).go = false := CpuScan.stop_of_found h.symm
  have hline : file.line p.cpu = some file.aggregate := if_pos h
  unfold SelectsLine
  simp only [Ends.iff_of_stop hstop, exists_eq_left, hline, Option.elim_some]
  exact eq_comm

variable (file) in
/-- For a processor the aggregate line is scanned first. -/
theorem selects_processor (h : p.cpu ≠ -1) : ∃ ret, ret ≠ eof ∧ ∀ garbage, SelectsLine garbage file p ↔
    ∃ s, Ends CpuScan.go (CpuScan.step garbage)
      ⟨(file.cpus.map fun cpu => cpuLine cpu.1 cpu.2) ++ file.others.map (· ++ ['\n']), 0,
        asInt (file.aggregate.headD 0), ret, p.fill file.aggregate.tail⟩ s ∧
      s.p = (file.line p.cpu).elim p p.fill := by
  obtain ⟨counter, counters, hagg⟩ : ∃ counter counters, file.aggregate = counter :: counters :=
    List.exists_cons_of_ne_nil fun hnil => by
      have := file.aggregate_length
      rw [hnil] at this
      exact absurd this (by decide)
  have hlines : file.lines = aggregateLine (counter :: counters) ::
      ((file.cpus.map fun cpu => cpuLine cpu.1 cpu.2) ++ file.others.map (· ++ ['\n'])) := by rw [← hagg]; rfl
  obtain ⟨r, hr, hstep⟩ := step_aggregateLine counter counters
    ((file.cpus.map fun cpu => cpuLine cpu.1 cpu.2) ++ file.others.map (· ++ ['\n'])) p
  have hgo : (CpuScan.start file.lines p).go = true := CpuScan.go_iff.mpr ⟨Ne.symm h, fun h => by cases h⟩
  refine ⟨r, hr, fun garbage => ?_⟩
  rw [hlines] at hgo
  unfold SelectsLine
  simp only [hagg, List.headD_cons, List.tail_cons, hlines, Ends.iff_of_go hgo, hstep]

/-- **Whatever is in the buffers, the search ends with the requested counters exactly when the line is there and the
aggregate line is not taken for it; for the whole system, when the record has them already.** -/
theorem selects_iff (file : StatText) (p : ProcCpu) : (∀ garbage, SelectsLine garbage file p) ↔
    if p.cpu = -1 then p.fill file.aggregate = p
    else if asInt (file.aggregate.headD 0) = p.cpu then
      p.fill file.aggregate.tail = (file.line p.cpu).elim p p.fill
    else (file.line p.cpu).isSome := by
  by_cases hsystem : p.cpu = -1
  · simp only [if_pos hsystem, selects_system hsystem, forall_const]
  · obtain ⟨r, hr, hselects⟩ := selects_processor file hsystem
    simp only [if_neg hsystem, hselects]
    generalize asInt (file.aggregate.headD 0) = num
    by_cases htaken : num = p.cpu
    · have hstop : CpuScan.go ⟨(file.cpus.map fun cpu => cpuLine cpu.1 cpu.2) ++ file.others.map (· ++ ['\n']), 0,
          num, r, p.fill file.aggregate.tail⟩ = false := CpuScan.stop_of_found htaken
      simp only [if_pos htaken, Ends.iff_of_stop hstop, exists_eq_left, forall_const]
    · rw [if_neg htaken, file.line_cpu hsystem, Option.isSome_map]
      cases hfind : file.cpus.find? fun l => (l.1 : Int) = p.cpu with
      | some l =>
        refine iff_of_true (fun garbage => ?_) rfl
        have hlength := file.cpus_length l (List.mem_of_find?_eq_some hfind)
        obtain ⟨s, hends, hs⟩ := ends_found garbage (file.others.map (· ++ ['\n'])) 0 (p := p.fill file.aggregate.tail)
          file.cpus_int file.cpus_length hfind htaken hr
        exact ⟨s, hends, hs.trans (p.fill_fill _ hlength)⟩
      | none =>
        refine iff_of_false (fun h => ?_) Bool.false_ne_true
        obtain ⟨s, hends, -⟩ := h fun _ => ['x']
        have hrequested : (p.fill file.aggregate.tail).cpu = p.cpu := rfl
        refine absurd hends (Searching.not_ends ⟨hrequested, htaken, hr, fun line hline => ?_⟩)
        rcases List.mem_append.mp hline with hline | hline
        · obtain ⟨cpu, hcpu, rfl⟩ := List.mem_map.mp hline
          exact .inl ⟨cpu.1, cpu.2, rfl, file.cpus_int cpu hcpu, by simpa using List.find?_eq_none.mp hfind cpu hcpu⟩
        · obtain ⟨text, htext, rfl⟩ := List.mem_map.mp hline
          exact .inr ⟨text, rfl, file.others_cpu text htext⟩

/-- The record that the search ends with is that of the snapshot whose lines are those of the file. -/
theorem fill_eq_update {k : Kernel} {counters : List UInt64} (h : 7 ≤ counters.length)
    (hk : k.cpu p.cpu = ⟨counters.getD 0 0, counters.getD 1 0, counters.getD 2 0, counters.getD 3 0,
      counters.getD 4 0, counters.getD 5 0, counters.getD 6 0⟩) : p.fill counters = procCpuUpdate p k := by
  unfold procCpuUpdate
  rw [hk]
  exact ProcCpu.fill_fill ⟨p.cpu, 0, 0, 0, 0, 0, 0, 0⟩ [p.user, p.nice, p.system, p.idle, p.iowait, p.irq, p.softirq] h

end File

/-! ## A machine with one processor -/

def oneCpu : StatText where
  aggregate := [40, 2, 13, 900, 7, 0, 1, 0, 0, 0]
  cpus := [(0, [40, 2, 13, 900, 7, 0, 1, 0, 0, 0])]
  others := ["intr 512 9".toList, "ctxt 77".toList]
  aggregate_length := by decide
  cpus_int := by decide
  cpus_length := by decide
  others_cpu := by decide

/-- The load of the whole system is never read. -/
theorem whole_system_unread : ¬ ∀ (file : StatText) (p : ProcCpu) (garbage : Nat → List Char),
    SelectsLine garbage file p := by
  intro h
  have hfill := (selects_system rfl).mp (h oneCpu ⟨-1, 0, 0, 0, 0, 0, 0, 0⟩ fun _ => [])
  exact absurd hfill (by decide)

end Proc
end Hmon
