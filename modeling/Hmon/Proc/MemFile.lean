import Hmon.Proc.CpuFile
import Hmon.Lib.ScanfText

/-!
# The files of the memory counters (`proc_mem_update`, `proc_numa_update` in `lproc.c`)

* `readFields` : calls of `fscanf` on one stream, each for one counter, up to the end of the file;
* `procMemUpdateFile`, `procNumaUpdateFile` : the functions on the text of the file;
* `memText`, `numaText` : the texts that the kernel prints;
* `memory_files` : **on these the functions store the counters of the snapshot**.
-/

namespace Hmon
namespace Proc
open Lib

/-! ## Reading -/

section Fields
variable {P : Type}

/-- A call of `fscanf` for each counter, `read_error` at the end of the file. -/
def readFields : List (List Item × (P → UInt64 → P)) → P → List Char → Int × P
  | [], p, _ => (0, p)
  | (format, store) :: fields, p, s =>
    let r := fscanf format s
    let p := match r.values with
      | v :: _ => store p (ulongValue v)
      | [] => p
    if r.result = eof then (-1, p) else readFields fields p r.rest

/-- A counter that is read goes to its field. -/
theorem readFields_cons {format : List Item} {store : P → UInt64 → P} {s rest : List Char} {n : UInt64}
    (h : fscanf format s = ⟨[.num n.toNat], none, rest⟩) (fields : List (List Item × (P → UInt64 → P))) (p : P) :
    readFields ((format, store) :: fields) p s = readFields fields (store p n) rest := by
  have hn : ulongValue (.num n.toNat) = n := UInt64.ofNat_toNat
  have hresult : Scanned.result ⟨[.num n.toNat], none, rest⟩ ≠ eof := by
    simp [Scanned.result, scanfResult, eof]
  simp only [readFields, h, hn, if_neg hresult]

end Fields

/-- `label %lu kB\n` -/
def memFormat (label : String) : List Item :=
  literal label ++ white :: .directive (.store .lu) :: white :: (literal "kB" ++ [white])

/-- `Node %*d label %lu kB\n` -/
def nodeFormat (label : String) : List Item :=
  literal "Node" ++ white :: .directive (.skip .d) :: white :: memFormat label

/-- `%*s %lu\n` -/
def numaFormat : List Item := [.directive (.skip .s), white, .directive (.store .lu), white]

def ProcMem.setTotal (p : ProcMem) (n : UInt64) : ProcMem := { p with total := n }
def ProcMem.setFree (p : ProcMem) (n : UInt64) : ProcMem := { p with free := n }
def ProcMem.setUsed (p : ProcMem) (n : UInt64) : ProcMem := { p with used := n }

/-- `proc_mem_update`; `none` is a file that cannot be opened. -/
def procMemUpdateFile (p : ProcMem) : Option (List Char) → Int × ProcMem
  | none => (-1, p)
  | some text =>
    if 0 ≤ p.node then
      readFields [(nodeFormat "MemTotal:", ProcMem.setTotal), (nodeFormat "MemFree:", ProcMem.setFree),
        (nodeFormat "MemUsed:", ProcMem.setUsed)] p text
    else
      match readFields [(memFormat "MemTotal:", ProcMem.setTotal), (memFormat "MemFree:", ProcMem.setFree)] p text with
      | (0, p) => (0, { p with used := p.total - p.free })
      | r => r

/-- `proc_numa_update` -/
def procNumaUpdateFile (p : ProcNuma) : Option (List Char) → Int × ProcNuma
  | none => (-1, p)
  | some text =>
    readFields [(numaFormat, fun p n => { p with localHit := n }), (numaFormat, fun p n => { p with remoteHit := n })]
      p text

/-! ## The texts -/

/-- White space, as the kernel aligns its numbers. -/
def Pad := {pad : List Char // ∀ c ∈ pad, isspace c = true}

/-- A line of a memory counter. -/
def memLine (label : String) (pad : Pad) (n : UInt64) (rest : List Char) : List Char :=
  label.toList ++ (pad.1 ++ (showInt (n.toNat : Int) ++ ' ' :: ("kB".toList ++ '\n' :: rest)))

/-- A line of a memory counter of a node. -/
def nodeLine (node : Int) (label : String) (pad : Pad) (n : UInt64) (rest : List Char) : List Char :=
  "Node".toList ++ (' ' :: (showInt node ++ ' ' :: memLine label pad n rest))

/-- `/sys/devices/system/node/node<n>/meminfo`, or `/proc/meminfo` of a negative node. -/
def memText (node : Int) (f : MemFile) (pads : Fin 3 → Pad) (rest : List Char) : List Char :=
  if 0 ≤ node then nodeLine node "MemTotal:" (pads 0) f.total (nodeLine node "MemFree:" (pads 1) f.free
    (nodeLine node "MemUsed:" (pads 2) f.used rest))
  else memLine "MemTotal:" (pads 0) f.total (memLine "MemFree:" (pads 1) f.free rest)

/-- A name without white space. -/
def Name := {w : List Char // w ≠ [] ∧ ∀ c ∈ w, isspace c = false}

def numaLine (name : Name) (n : UInt64) (rest : List Char) : List Char :=
  name.1 ++ ' ' :: (showInt (n.toNat : Int) ++ '\n' :: rest)

/-- `/sys/devices/system/node/node<n>/numastat` -/
def numaText (f : NumaFile) (names : Name × Name) (rest : List Char) : List Char :=
  numaLine names.1 f.localHit (numaLine names.2 f.remoteHit rest)

/-! ## What is read -/

theorem reads_counter (n : UInt64) : Reads .lu (showInt (n.toNat : Int)) (.num n.toNat) :=
  reads_ulong (.inr (.inl rfl)) n.toNat_lt

theorem blank_cons {c : Char} (hc : isspace c = true) (s : List Char) : Blank (c :: s) := by
  intro x hx
  obtain rfl := Option.some.inj hx
  exact hc

theorem fscanf_white_cons {c : Char} (hc : isspace c = true) (format : List Item) (s : List Char) :
    fscanf (white :: format) (c :: s) = fscanf format (dropWhite s) :=
  fscanf_white (List.forall_mem_singleton.mpr hc) format s

/-- A line is read as its counter, with the white space behind it. -/
theorem fscanf_memLine (label : String) (pad : Pad) (n : UInt64) (rest : List Char) :
    fscanf (memFormat label) (memLine label pad n rest) = ⟨[.num n.toNat], none, dropWhite rest⟩ := by
  have hcounter := reads_counter n
  have hkB : dropWhite ("kB".toList ++ '\n' :: rest) = "kB".toList ++ '\n' :: rest := rfl
  unfold memFormat memLine
  rw [fscanf_literal, fscanf_white pad.2, dropWhite_reads hcounter, fscanf_store hcounter _ (blank_cons rfl _),
    fscanf_white_cons rfl, hkB, fscanf_literal, fscanf_white_cons rfl]
  rfl

theorem dropWhite_literal {label : String} {c : Char} {t : List Char} (h : label.toList = c :: t)
    (hc : isspace c = false) (s : List Char) : dropWhite (label.toList ++ s) = label.toList ++ s := by
  rw [h]
  exact dropWhite_solid hc _

theorem fscanf_nodeLine (node : Int) {label : String} {c : Char} {t : List Char} (h : label.toList = c :: t)
    (hc : isspace c = false) (pad : Pad) (n : UInt64) (rest : List Char) :
    fscanf (nodeFormat label) (nodeLine node label pad n rest) = ⟨[.num n.toNat], none, dropWhite rest⟩ := by
  have hnode := reads_showInt (k := .d) rfl node
  have hline : dropWhite (memLine label pad n rest) = memLine label pad n rest := dropWhite_literal h hc _
  unfold nodeFormat nodeLine
  rw [fscanf_literal, fscanf_white_cons rfl, dropWhite_reads hnode, fscanf_skip hnode _ (blank_cons rfl _),
    fscanf_white_cons rfl, hline, fscanf_memLine]

theorem fscanf_numaLine (name : Name) (n : UInt64) (rest : List Char) :
    fscanf numaFormat (numaLine name n rest) = ⟨[.num n.toNat], none, dropWhite rest⟩ := by
  obtain ⟨w, hne, hw⟩ := name
  obtain ⟨x, t, rfl⟩ := List.exists_cons_of_ne_nil hne
  have hname := reads_word hw
  have hcounter := reads_counter n
  unfold numaFormat numaLine
  rw [fscanf_skip hname _ (blank_cons rfl _), fscanf_white_cons rfl, dropWhite_reads hcounter,
    fscanf_store hcounter _ (blank_cons rfl _), fscanf_white_cons rfl]
  rfl

theorem dropWhite_nodeLine (node : Int) (label : String) (pad : Pad) (n : UInt64) (rest : List Char) :
    dropWhite (nodeLine node label pad n rest) = nodeLine node label pad n rest := rfl

theorem dropWhite_memFree (pad : Pad) (n : UInt64) (rest : List Char) :
    dropWhite (memLine "MemFree:" pad n rest) = memLine "MemFree:" pad n rest := rfl

theorem dropWhite_numaLine (name : Name) (n : UInt64) (rest : List Char) :
    dropWhite (numaLine name n rest) = numaLine name n rest := by
  obtain ⟨w, hne, hw⟩ := name
  obtain ⟨x, t, rfl⟩ := List.exists_cons_of_ne_nil hne
  exact dropWhite_solid (hw x List.mem_cons_self) _

theorem procMemUpdateFile_eq (p : ProcMem) (k : Kernel) (pads : Fin 3 → Pad) (rest : List Char) :
    procMemUpdateFile p (some (memText p.node (k.mem p.node) pads rest)) = (0, procMemUpdate p k) := by
  unfold procMemUpdateFile memText procMemUpdate
  simp only
  split_ifs with hnode
  · rw [readFields_cons (fscanf_nodeLine p.node rfl rfl _ _ _), dropWhite_nodeLine,
      readFields_cons (fscanf_nodeLine p.node rfl rfl _ _ _), dropWhite_nodeLine,
      readFields_cons (fscanf_nodeLine p.node rfl rfl _ _ _)]
    rfl
  · rw [readFields_cons (fscanf_memLine _ _ _ _), dropWhite_memFree, readFields_cons (fscanf_memLine _ _ _ _)]
    rfl

theorem procNumaUpdateFile_eq (p : ProcNuma) (k : Kernel) (names : Name × Name) (rest : List Char) :
    procNumaUpdateFile p (some (numaText (k.numa p.node) names rest)) = (0, procNumaUpdate p k) := by
  unfold procNumaUpdateFile numaText
  simp only
  rw [readFields_cons (fscanf_numaLine _ _ _), dropWhite_numaLine, readFields_cons (fscanf_numaLine _ _ _)]
  rfl

/-- **From the files that the kernel prints the memory counters are those of the snapshot**, however the numbers are
aligned, and whatever follows. -/
theorem memory_files (k : Kernel) (rest : List Char) :
    (∀ (p : ProcMem) (pads : Fin 3 → Pad),
      procMemUpdateFile p (some (memText p.node (k.mem p.node) pads rest)) = (0, procMemUpdate p k)) ∧
    ∀ (p : ProcNuma) (names : Name × Name),
      procNumaUpdateFile p (some (numaText (k.numa p.node) names rest)) = (0, procNumaUpdate p k) :=
  ⟨fun p pads => procMemUpdateFile_eq p k pads rest, fun p names => procNumaUpdateFile_eq p k names rest⟩

/-- `/proc/meminfo` of a machine with 8 kB, of which 3 are free. -/
example : procMemUpdateFile ⟨-1, 0, 0, 0⟩
    (some "MemTotal:       8 kB\nMemFree:        3 kB\nMemAvailable:   5 kB\n".toList) = (0, ⟨-1, 8, 3, 5⟩) := rfl

end Proc
end Hmon
