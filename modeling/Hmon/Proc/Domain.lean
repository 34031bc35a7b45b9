import Hmon.Proc.Tasks
import Hmon.Restrict

/-!
# Monitoring the domain of a process (`hmon_restrict_pid` and `hmon_restrict_pid_taskset` in `synchronize.c`)

* `getlines` : the lines that `getline` returns; `procGetAllowedCpuset`, `hmonRestrictPid`;
* `restrict_pid` : **the mask of the status file becomes `allowed_cpuset` when it lies inside; nothing else changes**;
* `stopOutside`, `hmonRestrictPidTaskset` : the loop over the monitors;
* `taskset_exact` : **each monitor without a running task of the process is stopped, once, and no other**.
-/

namespace Hmon
namespace Proc
open Lib

/-! ## The allowed processors -/

/-- The lines of a file, each with the newline that ends it. -/
def getlines : List Char → List (List Char)
  | [] => []
  | c :: s =>
    if c = '\n' then [c] :: getlines s
    else match getlines s with
      | [] => [[c]]
      | l :: ls => (c :: l) :: ls

/-- A bitmap; one that is full has infinitely many processors. -/
inductive Bitmap
  | set (s : Cpuset)
  | full

def token : List Char := "Cpus_allowed:".toList

section
variable (bitmapSscanf : List Char → Cpuset)

/-- `proc_get_allowed_cpuset`; `file` is the text of `/proc/<pid>/status`, if it can be opened. -/
def procGetAllowedCpuset (file : Option (List Char)) : Bitmap :=
  match file.bind fun text => (getlines text).find? token.isPrefixOf with
  | none => .full
  | some line => .set (bitmapSscanf (line.dropLast.drop (token.length + 1)))

variable {V M : Type}

/-- `hmon_restrict` on a bitmap: one that is full is not included in `allowed_cpuset`. -/
def restrictBitmap (L : Registry V M) : Bitmap → Except Fault (Registry V M)
  | .set domain => (hmonRestrict L domain).map Prod.fst
  | .full => .ok L

def hmonRestrictPid (L : Registry V M) (file : Option (List Char)) : Except Fault (Registry V M) :=
  restrictBitmap L (procGetAllowedCpuset bitmapSscanf file)

end

/-- The lines of a status file before the mask, which have other labels. -/
def OtherLine (line : List Char) : Prop := '\n' ∉ line ∧ ¬ token <+: line ++ ['\n']

/-- A status file of the kernel with a mask. -/
def statusText (before : List (List Char)) (mask after : List Char) : List Char :=
  before.flatMap (· ++ ['\n']) ++ (token ++ '\t' :: mask ++ '\n' :: after)

theorem getlines_line {line : List Char} (h : '\n' ∉ line) (rest : List Char) :
    getlines (line ++ '\n' :: rest) = (line ++ ['\n']) :: getlines rest := by
  induction line with
  | nil => rfl
  | cons c line ih =>
    rw [List.mem_cons, not_or] at h
    rw [List.cons_append, getlines, if_neg (Ne.symm h.1), ih h.2]
    rfl

theorem getlines_other {before : List (List Char)} (h : ∀ line ∈ before, OtherLine line) (rest : List Char) :
    (getlines (before.flatMap (· ++ ['\n']) ++ rest)).find? token.isPrefixOf =
      (getlines rest).find? token.isPrefixOf := by
  induction before with
  | nil => rfl
  | cons line before ih =>
    obtain ⟨hline, hbefore⟩ := List.forall_mem_cons.mp h
    rw [List.flatMap_cons, List.append_assoc, List.append_assoc, List.singleton_append, getlines_line hline.1,
      List.find?_cons_of_neg (by rw [List.isPrefixOf_iff_prefix]; exact hline.2)]
    exact ih hbefore

/-- The mask of a status file is read. -/
theorem procGetAllowedCpuset_status (bitmapSscanf : List Char → Cpuset) {before : List (List Char)}
    {mask after : List Char} (hbefore : ∀ line ∈ before, OtherLine line) (hmask : '\n' ∉ mask) :
    procGetAllowedCpuset bitmapSscanf (some (statusText before mask after)) = .set (bitmapSscanf mask) := by
  have hline : '\n' ∉ token ++ '\t' :: mask := by
    rw [List.mem_append, List.mem_cons, not_or, not_or]
    exact ⟨by decide, by decide, hmask⟩
  have hfound : (getlines (statusText before mask after)).find? token.isPrefixOf =
      some (token ++ '\t' :: mask ++ ['\n']) := by
    unfold statusText
    rw [getlines_other hbefore, getlines_line hline, List.find?_cons_of_pos]
    rw [List.isPrefixOf_iff_prefix, List.append_assoc]
    exact List.prefix_append _ _
  have hdrop : (token ++ '\t' :: mask).drop (token.length + 1) = mask := by
    rw [← List.drop_drop, List.drop_left]
    rfl
  unfold procGetAllowedCpuset
  rw [Option.bind_some, hfound]
  simp only [List.dropLast_concat, hdrop]

/-- What a restriction to the domain of a process does. -/
def restrictedTo {V M : Type} (L : Registry V M) (domain : Cpuset) : Registry V M :=
  if domain ⊆ L.allowed then { L with allowed := domain } else L

/-- **The mask of the process becomes `allowed_cpuset` when it lies inside it**; a mask with another processor, a file
without a mask and a process without a file change nothing. -/
theorem restrict_pid {V M : Type} (bitmapSscanf : List Char → Cpuset) (L : Registry V M) {before : List (List Char)}
    {mask : List Char} (after : List Char) (hbefore : ∀ line ∈ before, OtherLine line) (hmask : '\n' ∉ mask) :
    hmonRestrictPid bitmapSscanf L (some (statusText before mask after)) = .ok (restrictedTo L (bitmapSscanf mask)) ∧
      hmonRestrictPid bitmapSscanf L (some (before.flatMap (· ++ ['\n']))) = .ok L ∧
      hmonRestrictPid bitmapSscanf L none = .ok L := by
  refine ⟨?_, ?_, rfl⟩
  · unfold hmonRestrictPid restrictedTo
    rw [procGetAllowedCpuset_status bitmapSscanf hbefore hmask]
    split_ifs with hd
    · simp only [restrictBitmap, hmonRestrict_included hd]
      rfl
    · simp only [restrictBitmap, hmonRestrict_forbidden hd]
      rfl
  · have hnone := getlines_other hbefore []
    rw [List.append_nil] at hnone
    unfold hmonRestrictPid procGetAllowedCpuset
    rw [Option.bind_some, hnone]
    rfl

/-- A mask of up to 32 processors whose digits are decimal. -/
def smallMask (mask : List Char) : Cpuset := (Finset.range 32).filter fun i => (Nat.ofDigitChars 16 mask 0).testBit i

/-- A process that may run on the first of two cores. -/
theorem restrict_pid_core :
    hmonRestrictPid smallMask restrictDemo
      (some (statusText ["Name:\tcat".toList] "00000001".toList "Cpus_allowed_list:\t0\n".toList)) =
        .ok { restrictDemo with allowed := {0} } := by
  have hother : ∀ line ∈ ["Name:\tcat".toList], OtherLine line := by
    intro line hline
    cases List.mem_singleton.mp hline
    exact ⟨by decide, by decide⟩
  have hmask : smallMask "00000001".toList = {0} := by decide
  have hd : ({0} : Cpuset) ⊆ restrictDemo.allowed := by decide
  rw [(restrict_pid smallMask restrictDemo _ hother (by decide)).1, hmask, restrictedTo, if_pos hd]

/-! ## The processors of the running tasks -/

section Taskset
variable {V M : Type} [DecidableEq M]

/-- The body of the loop of `hmon_restrict_pid_taskset`, with the monitors whose `eventset_stop` was called. -/
def stopOutside (running : Cpuset) (s : Registry V M × List M) (m : M) : Registry V M × List M :=
  if Disjoint (s.1.mon m).location.cpuset running ∧ (s.1.mon m).stopped = false then
    (s.1.setMon m { s.1.mon m with stopped := true }, s.2 ++ [m])
  else s

def hmonRestrictPidTaskset (fs : ProcFs) (held : (path : List Char) → Variables) (L : Registry V M) (pid : Int32)
    (recurse : Nat) : Option (Registry V M × List M) :=
  (procGetRunningCpuset fs held pid recurse).map fun running => L.registered.foldl (stopOutside running) (L, [])

/-- No task of the process runs on the object. -/
def Unused (fs : ProcFs) (recurse : Nat) (pid : Int32) (o : Obj) : Prop :=
  ∀ q ∈ reached fs recurse (procPath pid), ∀ f, Runs fs q f → f.processor ∉ o.cpuset

/-- The monitors `stops` were stopped, in the order of the array, and nothing else was changed. -/
structure Stopped (L L' : Registry V M) (ms stops : List M) (outside : Obj → Prop) : Prop where
  order : stops.Sublist ms
  nodup : stops.Nodup
  mem : ∀ m, m ∈ stops ↔ m ∈ ms ∧ outside (L.mon m).location ∧ (L.mon m).stopped = false
  mon : ∀ m, L'.mon m = if m ∈ stops then { L.mon m with stopped := true } else L.mon m
  rest : L' = { L with mon := L'.mon }

/-- One round of the loop. -/
theorem Stopped.step {L L' : Registry V M} {ms stops : List M} {running : Cpuset}
    (h : Stopped L L' ms stops fun o => Disjoint o.cpuset running) (m : M) :
    Stopped L (stopOutside running (L', stops) m).1 (ms ++ [m]) (stopOutside running (L', stops) m).2
      fun o => Disjoint o.cpuset running := by
  have hloc : (L'.mon m).location = (L.mon m).location := by
    rw [h.mon]
    split_ifs <;> rfl
  have hstopped : (L'.mon m).stopped = false ↔ m ∉ stops ∧ (L.mon m).stopped = false := by
    rw [h.mon]
    split_ifs with hm
    · exact iff_of_false (by simp) fun hn => hn.1 hm
    · exact (and_iff_right hm).symm
  unfold stopOutside
  by_cases hc : Disjoint (L'.mon m).location.cpuset running ∧ (L'.mon m).stopped = false
  · rw [if_pos hc]
    rw [hloc, hstopped] at hc
    obtain ⟨hdisj, hnot, hrun⟩ := hc
    refine ⟨h.order.append (List.Sublist.refl _),
      h.nodup.append (List.nodup_singleton m) (by simpa using hnot), ?_, ?_, ?_⟩
    · intro m'
      rw [List.mem_append, List.mem_append, h.mem, List.mem_singleton]
      constructor
      · rintro (⟨hm, ho⟩ | rfl)
        · exact ⟨Or.inl hm, ho⟩
        · exact ⟨Or.inr rfl, hdisj, hrun⟩
      · rintro ⟨hm | rfl, ho⟩
        · exact Or.inl ⟨hm, ho⟩
        · exact Or.inr rfl
    · intro m'
      by_cases hm : m' = m
      · subst hm
        rw [Registry.setMon_mon_self, if_pos (List.mem_append_right _ (List.mem_singleton_self _)), h.mon, if_neg hnot]
      · rw [Registry.setMon_mon_ne _ _ hm, h.mon]
        simp only [List.mem_append, List.mem_singleton, hm, or_false]
    · unfold Registry.setMon
      rw [h.rest]
  · rw [if_neg hc]
    rw [hloc, hstopped] at hc
    refine ⟨h.order.trans (List.sublist_append_left _ _), h.nodup, fun m' => ?_, h.mon, h.rest⟩
    rw [h.mem, List.mem_append, List.mem_singleton]
    constructor
    · exact fun ⟨hm, ho⟩ => ⟨Or.inl hm, ho⟩
    · rintro ⟨hm | rfl, ho⟩
      · exact ⟨hm, ho⟩
      · by_contra hn
        exact hc ⟨ho.1, fun hs => hn ((h.mem _).mp hs), ho.2⟩

theorem stopOutside_all (running : Cpuset) (L : Registry V M) (ms : List M) :
    Stopped L (ms.foldl (stopOutside running) (L, [])).1 ms (ms.foldl (stopOutside running) (L, [])).2
      fun o => Disjoint o.cpuset running := by
  induction ms using List.reverseRecOn with
  | nil => exact ⟨List.Sublist.refl _, List.nodup_nil, by simp, by simp, rfl⟩
  | append_singleton ms m ih =>
    rw [List.foldl_append]
    exact ih.step m

theorem disjoint_running {fs : ProcFs} {recurse : Nat} {pid : Int32} {o : Obj} :
    Disjoint o.cpuset (runningProcessors fs recurse (procPath pid)) ↔ Unused fs recurse pid o := by
  rw [Finset.disjoint_right]
  constructor
  · exact fun h q hq f hf => h (mem_runningProcessors.mpr ⟨q, hq, f, hf, rfl⟩)
  · intro h n hn
    obtain ⟨q, hq, f, hf, rfl⟩ := mem_runningProcessors.mp hn
    exact h q hq f hf

/-- **The registered monitors that count and have no running task of the process are stopped, each once and in the
order of the array, and nothing else changes**, when the stat files can be read. -/
theorem taskset_exact (fs : ProcFs) (L : Registry V M) {pid : Int32} {recurse : Nat}
    (hfit : ∀ q ∈ opened fs recurse (procPath pid), q.length < 128)
    (hread : ReadsRunning fs recurse (procPath pid) ∅) (held : (path : List Char) → Variables) :
    ∃ L' stops, hmonRestrictPidTaskset fs held L pid recurse = some (L', stops) ∧
      Stopped L L' L.registered stops (Unused fs recurse pid) := by
  refine ⟨(L.registered.foldl (stopOutside (runningProcessors fs recurse (procPath pid))) (L, [])).1,
    (L.registered.foldl (stopOutside (runningProcessors fs recurse (procPath pid))) (L, [])).2, ?_, ?_⟩
  · unfold hmonRestrictPidTaskset
    rw [(procGetRunningCpuset_iff hfit).mpr hread held]
    rfl
  · have h := stopOutside_all (runningProcessors fs recurse (procPath pid)) L L.registered
    exact ⟨h.order, h.nodup, fun m => by rw [h.mem, disjoint_running], h.mon, h.rest⟩

end Taskset

/-- Both cores have a monitor. -/
def tasksetDemo : Registry ℚ ℕ := (regSys.exec restrictDemo [.register 0 0, .register 1 0]).get rfl

/-- A process that runs on processor 3. -/
def catFs : ProcFs := threadFs (.file (runningFile "cat".toList) (by decide)) .missing

theorem taskset_exact_both : ∃ L' stops,
    hmonRestrictPidTaskset catFs (fun _ => ⟨⟨0, sleeping⟩, 'S', 0⟩) tasksetDemo 42 0 = some (L', stops) ∧
      Stopped tasksetDemo L' tasksetDemo.registered stops (Unused catFs 0 42) := by
  have hpath : procPath 42 = "/proc/42".toList := by decide
  refine taskset_exact catFs tasksetDemo ?_ ?_ _
  · rw [hpath]
    decide
  · rw [hpath]
    refine ⟨?_, ?_⟩
    · rintro ⟨q, hq, hstray⟩
      cases List.mem_singleton.mp hq
      exact absurd hstray (by decide)
    · rintro q hq f ⟨hlen, hstat, -⟩ hwhite
      cases List.mem_singleton.mp hq
      cases hstat
      exact absurd hwhite (by decide)

end Proc
end Hmon
