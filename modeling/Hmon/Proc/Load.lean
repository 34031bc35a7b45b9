import Hmon.Lib.Binary64
import Hmon.Lib.Checked
import Hmon.Proc.Basic
import Mathlib.Tactic.Linarith

/-!
# The processor load (`proc_stat_cpuload` and `proc_cpu_load` in `lproc.c`)

* `procStatCpuloadChecked`, `procCpuLoadChecked` : both with `none` for an intermediate result that overflows and for
  a division by zero;
* `Later` : a snapshot that is not before another one;
* `load_iff` : **both are percentages exactly when the sums of the counters fit, the ticks used, counted twice, stay
  below 1.01 times the difference of the timestamps**, which `clock` counts in microseconds, **and the ticks of a
  processor are not such that the idle ones are lost beside the used ones and a hundred times these is rounded up**.

The load of a processor is computed in `double`, whose results are rounded: its values are zero or between `2 ^ -64` and
`2 ^ 71`.
-/

namespace Hmon
namespace Proc
open Lib
open Proc.DoubleArith (ofULong)

def procStatCpuloadChecked (old new : ProcStat) : Option UInt64 := do
  let newTime ← Checked.sum new.utime [new.stime, new.utime, new.stime]
  let oldTime ← Checked.sum old.utime [old.stime, old.utime, old.stime]
  let usage ← Checked.sub newTime oldTime
  if usage = 0 then some usage
  else Checked.div (← Checked.mul 100 usage) (← Checked.sub new.timestamp old.timestamp)

instance : Double Binary64 where
  lt a b := a.val < b.val
  zero := .of 0
  add a b := .of (a.val + b.val)
  dblMin := .of (1 / 2 ^ 1022)
  dblMax := .of ((2 ^ 53 - 1) * 2 ^ 971)
  ofLong n := .of n
  decLt a b := inferInstanceAs (Decidable (a.val < b.val))

instance : DoubleArith Binary64 where
  mul a b := .of (a.val * b.val)
  div a b := .of (a.val / b.val)
  ofULong n := .of n.toNat
  ofULong_zero_ne_one h := absurd (Binary64.of_natCast_inj_zero.mp (Eq.symm (by exact_mod_cast h))) Nat.one_ne_zero

def procCpuLoadChecked (old new : ProcCpu) : Option Binary64 := do
  let newTime ← Checked.sum new.user [new.nice, new.system]
  let oldTime ← Checked.sum old.user [old.nice, old.system]
  let usage : Binary64 := ofULong (← Checked.sub newTime oldTime)
  if usage = ofULong 0 then some (ofULong 0)
  else
    let divisor := usage + ofULong (← Checked.sub new.idle old.idle)
    if divisor = ofULong 0 then none else some (ofULong 100 * usage / divisor)

/-- The ticks in user and in kernel space. -/
def ProcStat.time (p : ProcStat) : Nat := p.utime.toNat + p.stime.toNat

def ProcCpu.time (p : ProcCpu) : Nat := p.user.toNat + p.nice.toNat + p.system.toNat

structure ProcStat.Later (old new : ProcStat) : Prop where
  utime : old.utime ≤ new.utime
  stime : old.stime ≤ new.stime
  timestamp : old.timestamp ≤ new.timestamp

structure ProcCpu.Later (old new : ProcCpu) : Prop where
  user : old.user ≤ new.user
  nice : old.nice ≤ new.nice
  system : old.system ≤ new.system
  idle : old.idle ≤ new.idle

/-- The load is evaluated without overflow and without a division by zero, to a percentage. -/
def StatLoadIsPercentage (old new : ProcStat) : Prop :=
  ∃ load, procStatCpuloadChecked old new = some load ∧ procStatCpuload old new = some load ∧ load.toNat ≤ 100 ∧
    (new.time = old.time → load = 0)

def CpuLoadIsPercentage (old new : ProcCpu) : Prop :=
  ∃ load : Binary64, procCpuLoadChecked old new = some load ∧ procCpuLoad old new = load ∧ 0 ≤ load.val ∧
    load.val ≤ 100 ∧ (new.time = old.time → load.val = 0)

/-- Beside `used` ticks, `idle` ticks are too few to change the sum. -/
def IdleLost (used idle : Nat) : Prop := round53 (round53 used + round53 idle) = round53 used

/-- A hundred times the ticks is rounded up, by more than `2 ^ -47` of them. -/
def RoundsUp (used : Nat) : Prop := (100 + 1 / 2 ^ 47) * round53 used < round53 (100 * round53 used)

/-! ## Against the code -/

theorem procStatCpuload_eq_of_checked {old new : ProcStat} {load : UInt64}
    (h : procStatCpuloadChecked old new = some load) : procStatCpuload old new = some load := by
  obtain ⟨newTime, hn, h⟩ := Option.bind_eq_some_iff.mp h
  obtain ⟨oldTime, ho, h⟩ := Option.bind_eq_some_iff.mp h
  obtain ⟨usage, hu, h⟩ := Option.bind_eq_some_iff.mp h
  have hnew : new.utime + new.stime + new.utime + new.stime = newTime := Checked.eq_sum hn
  have hold : old.utime + old.stime + old.utime + old.stime = oldTime := Checked.eq_sum ho
  unfold procStatCpuload
  rw [hnew, hold, Checked.eq_sub hu]
  show (if usage = 0 then some usage else _) = _
  by_cases hzero : usage = 0
  · rw [if_pos hzero] at h ⊢
    exact h
  · rw [if_neg hzero] at h ⊢
    obtain ⟨percent, hp, h⟩ := Option.bind_eq_some_iff.mp h
    obtain ⟨elapsed, he, h⟩ := Option.bind_eq_some_iff.mp h
    obtain ⟨hnonzero, hdiv⟩ := Checked.eq_div h
    rw [Checked.eq_mul hp, Checked.eq_sub he, if_neg hnonzero, hdiv]

theorem procCpuLoad_eq_of_checked {old new : ProcCpu} {load : Binary64} (h : procCpuLoadChecked old new = some load) :
    procCpuLoad old new = load := by
  obtain ⟨newTime, hn, h⟩ := Option.bind_eq_some_iff.mp h
  obtain ⟨oldTime, ho, h⟩ := Option.bind_eq_some_iff.mp h
  obtain ⟨usage, hu, h⟩ := Option.bind_eq_some_iff.mp h
  have hnew : new.user + new.nice + new.system = newTime := Checked.eq_sum hn
  have hold : old.user + old.nice + old.system = oldTime := Checked.eq_sum ho
  unfold procCpuLoad
  rw [hnew, hold, Checked.eq_sub hu]
  show (if (ofULong usage : Binary64) = ofULong 0 then ofULong 0 else _) = _
  by_cases hzero : (ofULong usage : Binary64) = ofULong 0
  · rw [if_pos hzero] at h ⊢
    exact Option.some.inj h
  · rw [if_neg hzero] at h ⊢
    obtain ⟨idle, hi, h⟩ := Option.bind_eq_some_iff.mp h
    replace h : (if (ofULong usage : Binary64) + ofULong idle = ofULong 0 then none
      else some (ofULong 100 * ofULong usage / (ofULong usage + ofULong idle))) = some load := h
    split_ifs at h
    rw [Checked.eq_sub hi]
    exact Option.some.inj h

/-! ## The processes' load -/

theorem statTime {p : ProcStat} {time : UInt64} :
    Checked.sum p.utime [p.stime, p.utime, p.stime] = some time ↔ time.toNat = 2 * p.time := by
  rw [Checked.sum_eq_some]
  simp only [List.map_cons, List.map_nil, List.sum_cons, List.sum_nil, ProcStat.time]
  omega

theorem cpuTime {p : ProcCpu} {time : UInt64} : Checked.sum p.user [p.nice, p.system] = some time ↔
    time.toNat = p.time := by
  rw [Checked.sum_eq_some]
  simp only [List.map_cons, List.map_nil, List.sum_cons, List.sum_nil, ProcCpu.time]
  omega

theorem ProcStat.Later.time_le {old new : ProcStat} (h : old.Later new) : old.time ≤ new.time :=
  add_le_add (UInt64.le_iff_toNat_le.mp h.utime) (UInt64.le_iff_toNat_le.mp h.stime)

theorem ProcCpu.Later.time_le {old new : ProcCpu} (h : old.Later new) : old.time ≤ new.time :=
  add_le_add (add_le_add (UInt64.le_iff_toNat_le.mp h.user) (UInt64.le_iff_toNat_le.mp h.nice))
    (UInt64.le_iff_toNat_le.mp h.system)

section Stat
variable {old new : ProcStat}

theorem StatLoadIsPercentage.fits (h : old.Later new) (hload : StatLoadIsPercentage old new) :
    2 * new.time < 2 ^ 64 ∧ 200 * (new.time - old.time) < 2 ^ 64 ∧
      (new.time = old.time ∨ 200 * (new.time - old.time) < 101 * (new.timestamp.toNat - old.timestamp.toNat)) := by
  obtain ⟨load, hchecked, -, hbound, -⟩ := hload
  obtain ⟨newTime, hn, hchecked⟩ := Option.bind_eq_some_iff.mp hchecked
  obtain ⟨oldTime, ho, hchecked⟩ := Option.bind_eq_some_iff.mp hchecked
  obtain ⟨usage, hu, hchecked⟩ := Option.bind_eq_some_iff.mp hchecked
  rw [statTime] at hn ho
  rw [Checked.sub_eq_some] at hu
  have hfit := newTime.toNat_lt
  have hle := h.time_le
  refine ⟨by omega, ?_⟩
  by_cases hzero : usage = 0
  · have hsame : new.time = old.time := by
      rw [hzero, UInt64.toNat_zero] at hu
      omega
    exact ⟨by omega, .inl hsame⟩
  · rw [if_neg hzero] at hchecked
    obtain ⟨percent, hp, hchecked⟩ := Option.bind_eq_some_iff.mp hchecked
    obtain ⟨elapsed, he, hchecked⟩ := Option.bind_eq_some_iff.mp hchecked
    rw [Checked.mul_eq_some] at hp
    rw [Checked.sub_eq_some] at he
    obtain ⟨hnonzero, hdiv⟩ := Checked.div_eq_some.mp hchecked
    have hpercent : percent.toNat = 200 * (new.time - old.time) := by
      rw [hp, show (100 : UInt64).toNat = 100 from rfl]
      omega
    have hlt : percent.toNat < 101 * elapsed.toNat :=
      (Nat.div_lt_iff_lt_mul (Nat.pos_of_ne_zero hnonzero)).mp (by omega)
    have hpercentFit := percent.toNat_lt
    exact ⟨by omega, .inr (by omega)⟩

theorem StatLoadIsPercentage.of_fits (h : old.Later new) (hsum : 2 * new.time < 2 ^ 64)
    (hproduct : 200 * (new.time - old.time) < 2 ^ 64)
    (hratio : new.time = old.time ∨
      200 * (new.time - old.time) < 101 * (new.timestamp.toNat - old.timestamp.toNat)) :
    StatLoadIsPercentage old new := by
  have hle := h.time_le
  obtain ⟨newTime, hn⟩ := Checked.exists_toNat.mpr hsum
  obtain ⟨oldTime, ho⟩ := Checked.exists_toNat.mpr (show 2 * old.time < 2 ^ 64 by omega)
  obtain ⟨usage, husage, hu⟩ := Checked.exists_sub (show oldTime.toNat ≤ newTime.toNat by omega)
  suffices hchecked : ∃ load, procStatCpuloadChecked old new = some load ∧ load.toNat ≤ 100 ∧
      (new.time = old.time → load = 0) by
    obtain ⟨load, hload, hbound⟩ := hchecked
    exact ⟨load, hload, procStatCpuload_eq_of_checked hload, hbound⟩
  unfold procStatCpuloadChecked
  simp only [statTime.mpr hn, statTime.mpr ho, husage, Option.bind_eq_bind, Option.bind_some]
  by_cases hzero : usage = 0
  · exact ⟨0, by rw [if_pos hzero, hzero], Nat.zero_le _, fun _ => rfl⟩
  · have hused : new.time ≠ old.time := by
      intro hsame
      exact hzero (UInt64.toNat_inj.mp (by rw [hu, hn, ho, hsame, Nat.sub_self]; rfl))
    have hratio := hratio.resolve_left hused
    obtain ⟨percent, hp⟩ := Checked.exists_toNat.mpr hproduct
    obtain ⟨elapsed, helapsed, he⟩ := Checked.exists_sub (UInt64.le_iff_toNat_le.mp h.timestamp)
    obtain ⟨load, hl⟩ := Checked.exists_toNat.mpr
      (show percent.toNat / elapsed.toNat < 2 ^ 64 from lt_of_le_of_lt (Nat.div_le_self _ _) percent.toNat_lt)
    have hpercent : Checked.mul 100 usage = some percent := by
      rw [Checked.mul_eq_some, hp, hu, show (100 : UInt64).toNat = 100 from rfl]
      omega
    have hpos : 0 < elapsed.toNat := by omega
    have hbound : percent.toNat / elapsed.toNat < 101 := (Nat.div_lt_iff_lt_mul hpos).mpr (by omega)
    refine ⟨load, ?_, by omega, fun hsame => absurd hsame hused⟩
    rw [if_neg hzero, hpercent, Option.bind_some, helapsed, Option.bind_some]
    exact Checked.div_eq_some.mpr ⟨hpos.ne', hl⟩

end Stat

/-! ## A processor's load -/

section Cpu
variable {old new : ProcCpu} {used idle : Nat}

/-- The load of `used` ticks beside `idle` ones, each result rounded. -/
def roundedLoad (used idle : Nat) : ℚ :=
  round53 (round53 (100 * round53 used) / round53 (round53 used + round53 idle))

theorem round53_nonneg (n : Nat) : 0 ≤ round53 n := by
  rcases Nat.eq_zero_or_pos n with rfl | hpos
  · rw [Nat.cast_zero, round53_zero]
  · exact (round53_pos (Nat.cast_pos.mpr hpos)).le

/-- The sum is not below the ticks used. -/
theorem le_divisor (h : 0 < used) (idle : Nat) : round53 used ≤ round53 (round53 used + round53 idle) := by
  have hused : 0 < round53 used := round53_pos (Nat.cast_pos.mpr h)
  have hidle := round53_nonneg idle
  exact le_round53 (by linarith) (has53Bits_round53 _) (by linarith)

/-- **A rounded load is at most 100 unless the idle ticks are lost and a hundred times the used ones is rounded up.** -/
theorem roundedLoad_le_iff (h : 0 < used) : roundedLoad used idle ≤ 100 ↔ ¬ (IdleLost used idle ∧ RoundsUp used) := by
  have hused : 0 < round53 used := round53_pos (Nat.cast_pos.mpr h)
  have hproduct : 0 < round53 (100 * round53 used) := round53_pos (by linarith)
  have hle := le_divisor h idle
  have hdivisor := hused.trans_le hle
  unfold roundedLoad
  rw [round53_le_hundred_iff (div_pos hproduct hdivisor), div_le_iff₀ hdivisor]
  by_cases hlost : IdleLost used idle
  · have hsum : round53 (round53 used + round53 idle) = round53 used := hlost
    rw [hsum, ← not_lt]
    exact not_congr (and_iff_right hlost).symm
  · refine iff_of_true ?_ fun hboth => hlost hboth.1
    -- the sum is a last place further, which is more than what the product gains
    have hlt : round53 used < round53 (round53 used + round53 idle) := lt_of_le_of_ne hle (Ne.symm hlost)
    have hgap := gap_le (has53Bits_round53 _) (has53Bits_round53 _) hused hlt
    have hgain := round53_le_mul (show 0 < 100 * round53 used by linarith)
    linarith

/-- No product of at most 53 bits is rounded. -/
theorem not_roundsUp (h : 100 * used ≤ 2 ^ 53) : ¬ RoundsUp used := by
  have hproduct : round53 (100 * round53 used) = 100 * round53 used := by
    rw [round53_natCast (show used ≤ 2 ^ 53 by omega)]
    exact_mod_cast round53_natCast h
  have hnonneg := round53_nonneg used
  unfold RoundsUp
  rw [hproduct, not_lt]
  linarith

theorem ofULong_eq_zero {n : UInt64} : (ofULong n : Binary64) = ofULong 0 ↔ n.toNat = 0 := by
  have h := Binary64.of_natCast_inj_zero (n := n.toNat)
  rw [← Nat.cast_zero] at h
  exact h

/-- What the function returns for a difference of times that fits. -/
theorem procCpuLoadChecked_eq (h : old.Later new) (hsum : new.time < 2 ^ 64) :
    ∃ load : Binary64, procCpuLoadChecked old new = some load ∧
      load.val = if new.time = old.time then 0
        else roundedLoad (new.time - old.time) (new.idle.toNat - old.idle.toNat) := by
  have hle := h.time_le
  obtain ⟨newTime, hn⟩ := Checked.exists_toNat.mpr hsum
  obtain ⟨oldTime, ho⟩ := Checked.exists_toNat.mpr (lt_of_le_of_lt hle hsum)
  obtain ⟨usage, husage, hu⟩ := Checked.exists_sub (show oldTime.toNat ≤ newTime.toNat by omega)
  rw [hn, ho] at hu
  unfold procCpuLoadChecked
  simp only [cpuTime.mpr hn, cpuTime.mpr ho, husage, Option.bind_eq_bind, Option.bind_some]
  by_cases hzero : (ofULong usage : Binary64) = ofULong 0
  · have hsame : new.time = old.time := by
      have := ofULong_eq_zero.mp hzero
      omega
    rw [if_pos hzero, if_pos hsame]
    exact ⟨_, rfl, round53_zero⟩
  · have hne : usage.toNat ≠ 0 := fun h0 => hzero (ofULong_eq_zero.mpr h0)
    obtain ⟨idle, hidle, hi⟩ := Checked.exists_sub (UInt64.le_iff_toNat_le.mp h.idle)
    rw [if_neg hzero, if_neg (by omega), hidle, Option.bind_some, ← hu, ← hi]
    have hdivisor : (ofULong usage + ofULong idle : Binary64) ≠ ofULong 0 := fun h0 => by
      have hval : round53 (round53 usage.toNat + round53 idle.toNat) = 0 := (congrArg Binary64.val h0).trans round53_zero
      have hpos := (round53_pos (Nat.cast_pos.mpr (Nat.pos_of_ne_zero hne))).trans_le
        (le_divisor (Nat.pos_of_ne_zero hne) idle.toNat)
      exact hpos.ne' hval
    refine ⟨_, if_neg hdivisor, ?_⟩
    have hhundred : (ofULong 100 : Binary64).val = 100 := by exact_mod_cast round53_natCast (n := 100) (by norm_num)
    show round53 (round53 ((ofULong 100 : Binary64).val * round53 usage.toNat) / _) = _
    rw [hhundred]
    rfl

theorem cpuLoadIsPercentage_iff (h : old.Later new) : CpuLoadIsPercentage old new ↔ new.time < 2 ^ 64 ∧
    ¬ (IdleLost (new.time - old.time) (new.idle.toNat - old.idle.toNat) ∧ RoundsUp (new.time - old.time)) := by
  have hle := h.time_le
  have hnone : ¬ RoundsUp 0 := not_roundsUp (by norm_num)
  constructor
  · rintro ⟨load, hchecked, -, -, hbound, -⟩
    have hfit : new.time < 2 ^ 64 := by
      obtain ⟨newTime, hn, -⟩ := Option.bind_eq_some_iff.mp hchecked
      rw [← cpuTime.mp hn]
      exact newTime.toNat_lt
    obtain ⟨load', hchecked', hval⟩ := procCpuLoadChecked_eq h hfit
    cases hchecked.symm.trans hchecked'
    refine ⟨hfit, ?_⟩
    split_ifs at hval with hsame
    · rw [hsame, Nat.sub_self]
      exact fun hboth => hnone hboth.2
    · rw [hval] at hbound
      exact (roundedLoad_le_iff (by omega)).mp hbound
  · rintro ⟨hfit, hcond⟩
    obtain ⟨load, hchecked, hval⟩ := procCpuLoadChecked_eq h hfit
    refine ⟨load, hchecked, procCpuLoad_eq_of_checked hchecked, ?_⟩
    rw [hval]
    split_ifs with hsame
    · exact ⟨le_rfl, by norm_num, fun _ => rfl⟩
    · refine ⟨?_, (roundedLoad_le_iff (by omega)).mpr hcond, fun he => absurd he hsame⟩
      have hused : 0 < new.time - old.time := by omega
      have hpos : 0 < round53 (new.time - old.time : ℕ) := round53_pos (Nat.cast_pos.mpr hused)
      exact (round53_pos (div_pos (round53_pos (by linarith)) (hpos.trans_le (le_divisor hused _)))).le

end Cpu

/-- **Both loads are percentages exactly when the sums of the counters fit, the ticks used are few against the
microseconds between the timestamps, and no rounding takes the load of a processor above 100.** -/
theorem load_iff {old new : ProcStat} {oldCpu newCpu : ProcCpu} (h : old.Later new) (hcpu : oldCpu.Later newCpu) :
    StatLoadIsPercentage old new ∧ CpuLoadIsPercentage oldCpu newCpu ↔
      (2 * new.time < 2 ^ 64 ∧ 200 * (new.time - old.time) < 2 ^ 64 ∧
        (new.time = old.time ∨
          200 * (new.time - old.time) < 101 * (new.timestamp.toNat - old.timestamp.toNat))) ∧
      newCpu.time < 2 ^ 64 ∧ ¬ (IdleLost (newCpu.time - oldCpu.time) (newCpu.idle.toNat - oldCpu.idle.toNat) ∧
        RoundsUp (newCpu.time - oldCpu.time)) := by
  rw [cpuLoadIsPercentage_iff hcpu]
  refine and_congr_left fun _ => ⟨fun hstat => hstat.fits h, fun ⟨hsum, hproduct, hratio⟩ => ?_⟩
  exact .of_fits h hsum hproduct hratio

/-- A number of ticks whose hundredfold is rounded up that far: to an even significand. -/
example : RoundsUp 360287970189643 := by
  have hused : round53 (360287970189643 : ℕ) = 360287970189643 := by
    exact_mod_cast round53_natCast (n := 360287970189643) (by norm_num)
  have hplace : lastPlace 36028797018964300 = 8 :=
    (lastPlace_eq (e := 55) (by norm_num) (by norm_num)).trans (by norm_num)
  have hround : roundEven (36028797018964300 / 8) = 4503599627370538 := by decide +kernel
  unfold RoundsUp
  rw [hused, show (100 * 360287970189643 : ℚ) = 36028797018964300 by norm_num, round53_of_pos (by norm_num), hplace, hround]
  norm_num

/-- A record with `utime` ticks at time `timestamp`. -/
def statAt (utime timestamp : UInt64) : ProcStat :=
  ⟨1, 'R'.toUInt8, 0, 0, 0, 0, utime, 0, 0, 0, 1, 0, 0, 0, 0, 0, 0, timestamp⟩

def cpuAt (user idle : UInt64) : ProcCpu := ⟨-1, user, 0, 0, idle, 0, 0, 0⟩

theorem load_busy : StatLoadIsPercentage (statAt 10 1000) (statAt 15 21000) ∧
    CpuLoadIsPercentage (cpuAt 10 100) (cpuAt 40 110) :=
  (load_iff ⟨by decide, by decide, by decide⟩ ⟨by decide, by decide, by decide, by decide⟩).mpr
    ⟨by decide, by decide, fun h => not_roundsUp (by decide) h.2⟩

/-- A tick is counted between two snapshots with the same timestamp: a division by zero. -/
theorem load_same_timestamp : ¬ ∀ {old new : ProcStat} {oldCpu newCpu : ProcCpu}, old.Later new →
    oldCpu.Later newCpu → StatLoadIsPercentage old new ∧ CpuLoadIsPercentage oldCpu newCpu := by
  intro hall
  have h := @hall (statAt 10 1000) (statAt 11 1000) (cpuAt 0 0) (cpuAt 0 0)
    ⟨by decide, by decide, by decide⟩ ⟨by decide, by decide, by decide, by decide⟩
  obtain ⟨load, -, hload, -⟩ := h.1
  have hnone : procStatCpuload (statAt 10 1000) (statAt 11 1000) = none := by decide
  cases hnone.symm.trans hload

end Proc
end Hmon
