import Hmon.Lib.CString
import Hmon.Monitor.Basic
import Hmon.Trace

/-!
# The text that `hmonitor_output` prints (`hmonitor.c`)

* `printSamples` : the loop of `sprintf` into the local array; `outputText` : `hmonitor_output` with its memory;
* `printSamples_zeroed` : **the samples fit the array**, which has 20 bytes for each;
* `output_exact` : **the printed text is that of the abstract `hmonitor_output`, for every finite sample; the array is read
  outside of its bounds exactly when it is printed for a monitor without samples**.
-/

namespace Hmon
open Lib

variable {T M : Type}

/-! ## The local array -/

/-- `"%-.6e "` -/
def sampleText (s : ℚ) : List Char := exponential 6 s ++ [' ']

/-- `for(;j<m->n_samples;j++){c+=sprintf(c, "%-.6e ", m->samples[j]);}` with `n` samples left; `none` where memory outside
of `m->samples` or of the array is used. -/
def printSamples (samples : List ℚ) : (n j c : Nat) → List Char → Option (List Char)
  | 0, _, _, buf => some buf
  | n + 1, j, c, buf =>
    samples[j]?.bind fun s =>
      (storeAt buf c (sampleText s ++ ['\x00'])).bind (printSamples samples n (j + 1) (c + (sampleText s).length))

/-- The argument of a `%s`; `none` where there is no `'\0'` in the array. -/
def stringArg (buf : List Char) : Option (List Char) := if '\x00' ∈ buf then some (cstring buf) else none

section
variable [DecidableEq T] (typeName : ObjType → List Char)

/-- `hmonitor_output`: the text that it prints, if any; `none` where it uses memory outside of an array. -/
def outputText (self : T) (force : Bool) (m : Hmonitor T ℚ M) : Option (Option (List Char)) :=
  if m.output ≠ none ∧ (m.owner = self ∨ force) then do
    let buf ← printSamples m.samples m.nSamples 0 0 (zeroed (u32 (m.nSamples * 20)) [])
    let samples ← stringArg buf
    let timestamp ← hmonitorGetTimestamp m m.last
    some (some (padLeft 8 (typeName m.location.type) ++ ':' :: decimal m.location.logicalIndex ++
      ' ' :: (padLeft 14 (showInt (truncate timestamp)) ++ ' ' :: samples ++ ['\n'])))
  else some none

end

/-! ## The samples fit -/

theorem length_sampleText_le {s : ℚ} (h : IsDouble s) : (sampleText s).length ≤ 15 := by
  have : (exponential 6 s).length ≤ 6 + 8 := length_exponential_le (by decide) h
  unfold sampleText
  rw [List.length_append, List.length_singleton]
  omega

theorem length_samplesText_le {ss : List ℚ} (h : ∀ s ∈ ss, IsDouble s) :
    (ss.flatMap sampleText).length ≤ 15 * ss.length := by
  induction ss with
  | nil => exact Nat.zero_le _
  | cons s ss ih =>
    have hs := length_sampleText_le (h s List.mem_cons_self)
    have hss := ih fun s hs => h s (List.mem_cons_of_mem _ hs)
    rw [List.flatMap_cons, List.length_append, List.length_cons]
    omega

theorem zero_not_mem_samplesText (ss : List ℚ) : '\x00' ∉ ss.flatMap sampleText := by
  intro h
  obtain ⟨s, -, h⟩ := List.mem_flatMap.mp h
  rcases List.mem_append.mp h with h | h
  · exact zero_not_mem_exponential 6 s h
  · exact absurd h (by decide)

/-- The text of a `sprintf` right behind a string. -/
theorem sprintf_zeroed {size : Nat} {text t : List Char} (h : (text ++ t).length < size) :
    storeAt (zeroed size text) text.length (t ++ ['\x00']) = some (zeroed size (text ++ t)) := by
  have hlen := h
  rw [List.length_append] at hlen
  have hall : snprintf (size - text.length) t = t ++ ['\x00'] := by
    unfold snprintf
    rw [if_neg (by omega), List.take_of_length_le (by omega)]
  rw [← hall]
  exact zeroed_append h

/-- **The loop puts the samples behind the text**, as long as there is room for them. -/
theorem printSamples_zeroed {samples : List ℚ} {size : Nat} {n j : Nat} {text : List Char}
    (hn : j + n ≤ samples.length) (h : (text ++ ((samples.drop j).take n).flatMap sampleText).length < size) :
    printSamples samples n j text.length (zeroed size text) =
      some (zeroed size (text ++ ((samples.drop j).take n).flatMap sampleText)) := by
  induction n generalizing j text with
  | zero => rw [List.take_zero, List.flatMap_nil, List.append_nil]; rfl
  | succ n ih =>
    have hj : j < samples.length := by omega
    rw [List.drop_eq_getElem_cons hj, List.take_succ_cons, List.flatMap_cons, ← List.append_assoc] at h ⊢
    have hfits : (text ++ sampleText samples[j]).length < size := by
      rw [List.length_append] at h
      omega
    unfold printSamples
    rw [List.getElem?_eq_getElem hj, Option.bind_some, sprintf_zeroed hfits, Option.bind_some, ← List.length_append]
    exact ih (by omega) h

/-! ## The printed text -/

theorem stringArg_zeroed {size : Nat} {text : List Char} (hzero : '\x00' ∉ text) (h : text.length < size) :
    stringArg (zeroed size text) = some text := by
  have hmem : '\x00' ∈ zeroed size text :=
    List.mem_append_right text (List.mem_replicate.mpr ⟨by omega, rfl⟩)
  unfold stringArg
  rw [if_pos hmem, cstring_zeroed hzero]

/-- **`hmonitor_output` prints its line for every finite sample. It never writes outside of its array, and reads outside of
it exactly when the monitor has no sample.** -/
theorem output_exact [DecidableEq T] (typeName : ObjType → List Char) (self : T) (force : Bool) {m : Hmonitor T ℚ M}
    (hlen : m.samples.length = m.nSamples) (hsize : m.nSamples * 20 < 2 ^ 32) (hs : ∀ s ∈ m.samples, IsDouble s) :
    outputText typeName self force m =
      match hmonitorOutput self force m with
      | none => some none
      | some (o, timestamp, samples) =>
        if m.nSamples = 0 then none
        else timestamp.map fun t => some (outputLine typeName o (truncate t) samples) := by
  have htake : m.samples.take m.nSamples = m.samples := List.take_of_length_le hlen.le
  have hu : u32 (m.nSamples * 20) = m.nSamples * 20 := Nat.mod_eq_of_lt hsize
  unfold outputText hmonitorOutput
  by_cases hprint : m.output ≠ none ∧ (m.owner = self ∨ force = true)
  · rw [if_pos hprint, if_pos hprint, hu, htake]
    by_cases h0 : m.nSamples = 0
    · simp only [h0, if_true]
      rfl
    · have hroom : (m.samples.flatMap sampleText).length < m.nSamples * 20 := by
        have := length_samplesText_le hs
        omega
      have hbuf : printSamples m.samples m.nSamples 0 0 (zeroed (m.nSamples * 20) []) =
          some (zeroed (m.nSamples * 20) (m.samples.flatMap sampleText)) := by
        have hrun := @printSamples_zeroed m.samples (m.nSamples * 20) m.nSamples 0 [] (by omega)
          (by rwa [List.drop_zero, htake, List.nil_append])
        rwa [List.drop_zero, htake] at hrun
      rw [hbuf]
      simp only [if_neg h0, bind, Option.bind, stringArg_zeroed (zero_not_mem_samplesText m.samples) hroom]
      cases hmonitorGetTimestamp m m.last with
      | none => rfl
      | some t => rfl
  · rw [if_neg hprint, if_neg hprint]

/-- A monitor of one sample that has an output. -/
def printedMonitor : Hmonitor ℕ ℚ ℕ := { fakeMonitor with output := some 0 }

theorem output_exact_one : outputText (fun _ => "Core".toList) 0 false printedMonitor =
    some (some (outputLine (fun _ => "Core".toList) printedMonitor.location (truncate 0) [0])) :=
  output_exact (fun _ => "Core".toList) 0 false rfl (by decide) (fun _ hs => Or.inl (List.mem_singleton.mp hs))

end Hmon
