import Hmon.Hwloc
import Hmon.Lib.Printf
import Hmon.Lib.Strtok

/-!
# Traces (`hmonitor_output` in `hmonitor.c`, `monitor_trace_reader.c`, `monitor_trace_monitor.c`)

* `outputLine` : the line that `hmonitor_output` prints;
* `parseNextEntry` : the entry that the reader makes of a line, with the cells of the selection array that it reads;
* `TraceEventset`, `traceAddNamedEvent` : the eventset of the trace plugin and its selection array;
* `parse_outputLine` : the reader skips a name that the writer does not print, and takes each field for the one before;
* `trace_iff` : **no line is read back, and the reader stays inside its arrays exactly when the line has no more values
  than the selection array has cells**.
-/

namespace Hmon
open Lib

/-! ## The writer -/

/-- `%ns` -/
def padLeft (width : Nat) (text : List Char) : List Char := List.replicate (width - text.length) ' ' ++ text

/-- `type:index` -/
def locationText (typeName : ObjType → List Char) (o : Obj) : List Char :=
  typeName o.type ++ ':' :: decimal o.logicalIndex

/-- `%8s:%u %14ld %s`, the samples being printed with `%-.6e` and a blank. -/
def outputLine (typeName : ObjType → List Char) (o : Obj) (timestamp : Int) (samples : List ℚ) : List Char :=
  padLeft 8 (typeName o.type) ++ ':' :: decimal o.logicalIndex ++ ' ' :: (padLeft 14 (showInt timestamp) ++
    ' ' :: (samples.flatMap fun s => exponential 6 s ++ [' ']) ++ ['\n'])

/-! ## The reader -/

/-- What `next_token_begin` returns one after the other, behind the skipped name. -/
def nextTokens (line : List Char) : List (List Char) :=
  ((strtok (· == ' ') line).drop 1).filter fun token => token.head? ≠ some '\n'

/-- An entry, and the indices at which `trace_values_index` was read. -/
structure TraceEntry where
  location : List Char
  timestamp : Int
  values : List Int
  reads : List Nat

/-- The loop over the values. -/
def readValues (selection : Nat → Int) : (traceIndex : Nat) → List (List Char) → List Int × List Nat
  | _, [] => ([], [])
  | i, token :: tokens =>
    let (values, reads) := readValues selection (i + 1) tokens
    (if selection i ≠ 0 then atol token :: values else values, i :: reads)

/-- `monitor_trace_parse_next_entry` on a line, for a location of `locationMax` characters and the memory from
`trace_values_index` on; `none` where a missing token is dereferenced. -/
def parseNextEntry (locationMax : Nat) (selection : Nat → Int) (line : List Char) : Option TraceEntry :=
  match nextTokens line with
  | location :: timestamp :: values =>
    let (values, reads) := readValues selection 0 values
    some ⟨location.take locationMax, atol timestamp, values, reads⟩
  | _ => none

/-- The memory of an array and what lies behind it. -/
def cells (array : List Int) (beyond : Nat → Int) (i : Nat) : Int := array.getD i (beyond i)

/-! ## The selection array -/

/-- `struct monitor_trace_eventset`; `allocated` is the length of the array. -/
structure TraceEventset where
  eventFieldIndexes : List Int
  nEvents : Nat

/-- `while(e>=allocated) allocated*=2` -/
def grow (e allocated : Nat) : Nat := if 0 < allocated ∧ allocated ≤ e then grow e (2 * allocated) else allocated
termination_by e + 1 - allocated

/-- `monitor_eventset_init` -/
def traceEventsetInit : TraceEventset := ⟨List.replicate 4 0, 0⟩

/-- `monitor_eventset_add_named_event`; `none` for a field number that is negative, or for which `allocated` does not
fit in an `int`. -/
def traceAddNamedEvent (evset : TraceEventset) (event : List Char) : Option TraceEventset :=
  let e := atoiText event
  if e < 0 ∨ 2 ^ 30 ≤ e then none
  else
    let oldAllocated := evset.eventFieldIndexes.length
    let fields := evset.eventFieldIndexes ++ List.replicate (grow e.toNat oldAllocated - oldAllocated) 0
    some ⟨fields.set e.toNat 1, evset.nEvents + 1⟩

/-- An eventset with its events added. -/
def traceEventset (events : List (List Char)) : Option TraceEventset :=
  events.foldlM traceAddNamedEvent traceEventsetInit

/-! ## What is expected of the reader -/

/-- The values of the selected samples. -/
def selectedValues (selection : List Int) (samples : List ℚ) : List Int :=
  ((samples.zip selection).filter fun x => x.2 ≠ 0).map fun x => atol (exponential 6 x.1)

/-- The reader inverts the writer on a line. -/
def Inverts (typeName : ObjType → List Char) (o : Obj) (timestamp : Int) (samples : List ℚ) (selection : List Int)
    (locationMax : Nat) (beyond : Nat → Int) : Prop :=
  ∃ entry, parseNextEntry locationMax (cells selection beyond) (outputLine typeName o timestamp samples) = some entry ∧
    entry.location = locationText typeName o ∧ entry.timestamp = timestamp ∧
    entry.values = selectedValues selection samples

/-- The reader reads inside the selection array and writes at most `n_events` values. -/
def BoundsKept (evset : TraceEventset) (line : List Char) : Prop :=
  ∀ locationMax beyond entry, parseNextEntry locationMax (cells evset.eventFieldIndexes beyond) line = some entry →
    (∀ i ∈ entry.reads, i < evset.eventFieldIndexes.length) ∧ entry.values.length ≤ evset.nEvents

/-! ## The line is not read back -/

theorem showInt_ne_nil (i : Int) : showInt i ≠ [] := by
  cases i with
  | ofNat n => exact Nat.toDigits_ne_nil
  | negSucc n => exact List.cons_ne_nil _ _

/-- A printed number is a token. -/
theorem not_delimiter {w : List Char} (hw : ∀ c ∈ w, Lib.Printed c) : ∀ c ∈ w, (c == ' ') = false := by
  intro c hc
  rw [beq_eq_false_iff_ne]
  rintro rfl
  exact absurd (hw ' ' hc).not_space (by decide)

theorem strtok_padLeft (width : Nat) (text s : List Char) :
    strtok (· == ' ') (padLeft width text ++ s) = strtok (· == ' ') (text ++ s) := by
  unfold padLeft
  rw [List.append_assoc]
  refine strtok_delimiters (fun c hc => ?_) (text ++ s)
  rw [(List.mem_replicate.mp hc).2]
  rfl

/-- The tokens of a printed line, when the name of the type is one word. -/
theorem strtok_outputLine {typeName : ObjType → List Char} {o : Obj} (hname : ' ' ∉ typeName o.type) (timestamp : Int)
    (samples : List ℚ) :
    strtok (· == ' ') (outputLine typeName o timestamp samples) =
      locationText typeName o :: showInt timestamp :: (samples.map (exponential 6) ++ [['\n']]) := by
  have hlocation : ∀ c ∈ locationText typeName o, (c == ' ') = false := by
    intro c hc
    rcases List.mem_append.mp hc with hc | hc
    · exact beq_eq_false_iff_ne.mpr fun h => hname (h ▸ hc)
    · rcases List.mem_cons.mp hc with rfl | hc
      · rfl
      · exact not_delimiter (printed_decimal _) c hc
  have hsamples : strtok (· == ' ') ((samples.flatMap fun s => exponential 6 s ++ [' ']) ++ ['\n']) =
      samples.map (exponential 6) ++ [['\n']] := by
    induction samples with
    | nil => rfl
    | cons s samples ih =>
      rw [List.flatMap_cons, List.append_assoc, List.append_assoc, List.singleton_append,
        strtok_word (exponential_ne_nil 6 s) (not_delimiter (printed_exponential 6 s)) rfl, ih]
      rfl
  have hline : outputLine typeName o timestamp samples =
      padLeft 8 (typeName o.type) ++ (':' :: decimal o.logicalIndex ++ ' ' :: (padLeft 14 (showInt timestamp) ++
        ' ' :: ((samples.flatMap fun s => exponential 6 s ++ [' ']) ++ ['\n']))) := by
    unfold outputLine
    simp only [List.append_assoc, List.cons_append]
  have hne : locationText typeName o ≠ [] := List.append_ne_nil_of_right_ne_nil _ (List.cons_ne_nil _ _)
  rw [hline, strtok_padLeft, ← List.append_assoc]
  change strtok (· == ' ') (locationText typeName o ++ ' ' :: _) = _
  rw [strtok_word hne hlocation rfl, strtok_padLeft,
    strtok_word (showInt_ne_nil timestamp) (not_delimiter (printed_showInt timestamp)) rfl, hsamples]

/-- The tokens that the reader sees: the location is skipped as if it were a name. -/
theorem nextTokens_outputLine {typeName : ObjType → List Char} {o : Obj} (hname : ' ' ∉ typeName o.type)
    (timestamp : Int) (samples : List ℚ) :
    nextTokens (outputLine typeName o timestamp samples) = showInt timestamp :: samples.map (exponential 6) := by
  have hkeep : ∀ w : List Char, (∀ c ∈ w, Lib.Printed c) → w.head? ≠ some '\n' := by
    intro w hw h
    exact absurd (hw '\n' (List.mem_of_mem_head? h)).not_space (by decide)
  unfold nextTokens
  rw [strtok_outputLine hname, List.drop_one, List.tail_cons, ← List.cons_append, List.filter_append]
  have hnewline : [['\n']].filter (fun token => token.head? ≠ some '\n') = [] := by simp
  rw [hnewline, List.append_nil, List.filter_eq_self]
  intro w hw
  rw [decide_eq_true_eq]
  refine hkeep w ?_
  rcases List.mem_cons.mp hw with rfl | hw
  · exact printed_showInt timestamp
  · obtain ⟨s, -, rfl⟩ := List.mem_map.mp hw
    exact printed_exponential 6 s

/-- **The fields are taken for the ones before them**: the timestamp for the location, the first sample for the
timestamp. -/
theorem parse_outputLine {typeName : ObjType → List Char} {o : Obj} (hname : ' ' ∉ typeName o.type) (timestamp : Int)
    (s : ℚ) (samples : List ℚ) (locationMax : Nat) (selection : Nat → Int) :
    parseNextEntry locationMax selection (outputLine typeName o timestamp (s :: samples)) =
      let (values, reads) := readValues selection 0 (samples.map (exponential 6))
      some ⟨(showInt timestamp).take locationMax, atol (exponential 6 s), values, reads⟩ := by
  unfold parseNextEntry
  rw [nextTokens_outputLine hname]
  rfl

/-- A location that was read is the beginning of a token. -/
theorem location_of_parse {locationMax : Nat} {selection : Nat → Int} {line : List Char} {entry : TraceEntry}
    (h : parseNextEntry locationMax selection line = some entry) :
    ∃ token, (nextTokens line).head? = some token ∧ entry.location = token.take locationMax := by
  unfold parseNextEntry at h
  split at h
  · rename_i location _ _ htokens
    rw [htokens]
    refine ⟨location, rfl, ?_⟩
    rw [← Option.some.inj h]
  · cases h

/-- **The writer's location is never read back.** -/
theorem not_inverts (typeName : ObjType → List Char) (o : Obj) (timestamp : Int) (samples : List ℚ)
    (selection : List Int) (locationMax : Nat) (beyond : Nat → Int) :
    ¬ Inverts typeName o timestamp samples selection locationMax beyond := by
  rintro ⟨entry, hparse, hlocation, -⟩
  obtain ⟨token, htoken, htake⟩ := location_of_parse hparse
  have hmem : ∀ c ∈ locationText typeName o, c ∈ token := fun c hc =>
    List.mem_of_mem_take (htake ▸ hlocation ▸ hc)
  by_cases hname : ' ' ∈ typeName o.type
  · -- a token has no blank
    have hfull : token ∈ strtok (· == ' ') (outputLine typeName o timestamp samples) :=
      List.mem_of_mem_drop (List.mem_of_mem_filter (List.mem_of_mem_head? htoken))
    have h := not_delimiter_of_mem_strtok hfull ' ' (hmem ' ' (List.mem_append_left _ hname))
    exact absurd h (by decide)
  · -- a printed number has no colon
    rw [nextTokens_outputLine hname, List.head?_cons, Option.some.injEq] at htoken
    have hcolon : ':' ∈ locationText typeName o := List.mem_append_right _ List.mem_cons_self
    rcases printed_showInt timestamp ':' (htoken ▸ hmem ':' hcolon) with h | h
    · exact absurd h (by decide)
    · exact absurd h (by decide)

/-! ## The arrays are kept -/

theorem readValues_reads (selection : Nat → Int) (i : Nat) (tokens : List (List Char)) :
    (readValues selection i tokens).2 = List.range' i tokens.length := by
  induction tokens generalizing i with
  | nil => rfl
  | cons token tokens ih =>
    unfold readValues
    simp only [List.length_cons, List.range'_succ]
    rw [ih]

/-- A value for each selected index. -/
theorem length_readValues (selection : Nat → Int) (i : Nat) (tokens : List (List Char)) :
    (readValues selection i tokens).1.length = (List.range' i tokens.length).countP fun j => selection j ≠ 0 := by
  induction tokens generalizing i with
  | nil => rfl
  | cons token tokens ih =>
    unfold readValues
    simp only [List.length_cons, List.range'_succ, List.countP_cons]
    rw [← ih]
    split_ifs <;> simp_all

/-- Inside the array, the cells are the array's. -/
theorem countP_cells {array : List Int} {n : Nat} (hn : n ≤ array.length) (beyond : Nat → Int) :
    ((List.range' 0 n).countP fun j => cells array beyond j ≠ 0) ≤ array.countP fun x => x ≠ 0 := by
  have htake : (List.range' 0 n).map (cells array beyond) = array.take n := by
    refine List.ext_getElem (by simp [hn]) fun i hi _ => ?_
    have hlt : i < n := by simpa using hi
    simp only [List.getElem_map, List.getElem_range', List.getElem_take, cells, Nat.zero_add, Nat.one_mul]
    rw [← List.getElem_eq_getD]
  calc ((List.range' 0 n).countP fun j => cells array beyond j ≠ 0)
      = (array.take n).countP fun x => x ≠ 0 := by rw [← htake, List.countP_map]; rfl
    _ ≤ array.countP fun x => x ≠ 0 := (List.take_sublist n array).countP_le

theorem countP_set_le (fields : List Int) (i : Nat) (x : Int) :
    ((fields.set i x).countP fun y => y ≠ 0) ≤ (fields.countP fun y => y ≠ 0) + 1 := by
  induction fields generalizing i with
  | nil => exact Nat.zero_le _
  | cons y fields ih =>
    cases i with
    | zero =>
      rw [List.set_cons_zero, List.countP_cons, List.countP_cons]
      split_ifs <;> omega
    | succ i =>
      rw [List.set_cons_succ, List.countP_cons, List.countP_cons]
      have := ih i
      omega

/-- There are no more selected fields than events. -/
def FieldsCounted (evset : TraceEventset) : Prop := (evset.eventFieldIndexes.countP fun x => x ≠ 0) ≤ evset.nEvents

theorem FieldsCounted.add {evset evset' : TraceEventset} {event : List Char} (h : FieldsCounted evset)
    (hadd : traceAddNamedEvent evset event = some evset') : FieldsCounted evset' := by
  unfold traceAddNamedEvent at hadd
  extract_lets e old fields at hadd
  split_ifs at hadd
  rw [← Option.some.inj hadd]
  have hzero : ((List.replicate (grow e.toNat old - old) (0 : Int)).countP fun x => x ≠ 0) = 0 := by simp
  have hfields : (fields.countP fun x => x ≠ 0) = evset.eventFieldIndexes.countP fun x => x ≠ 0 := by
    rw [List.countP_append, hzero, Nat.add_zero]
  have hset := countP_set_le fields e.toNat 1
  unfold FieldsCounted at h ⊢
  simp only
  omega

theorem counted_traceEventset {events : List (List Char)} {evset : TraceEventset}
    (h : traceEventset events = some evset) : FieldsCounted evset := by
  have run : ∀ events : List (List Char), ∀ s t : TraceEventset, FieldsCounted s →
      events.foldlM traceAddNamedEvent s = some t → FieldsCounted t := by
    intro events
    induction events with
    | nil =>
      intro s t hs hrun
      exact Option.some.inj hrun ▸ hs
    | cons event events ih =>
      intro s t hs hrun
      rw [List.foldlM_cons] at hrun
      obtain ⟨s', hadd, hrest⟩ := Option.bind_eq_some_iff.mp hrun
      exact ih s' t (hs.add hadd) hrest
  exact run events traceEventsetInit evset (Nat.le_refl _) h

/-- The fields behind the location and the timestamp. -/
def valueFields (line : List Char) : List (List Char) := (nextTokens line).drop 2

/-- **The arrays are kept exactly when the line has no more values than the selection array has cells.** -/
theorem bounds_iff {evset : TraceEventset} (h : FieldsCounted evset) (line : List Char) :
    BoundsKept evset line ↔ (valueFields line).length ≤ evset.eventFieldIndexes.length := by
  unfold BoundsKept parseNextEntry valueFields
  rcases nextTokens line with _ | ⟨location, _ | ⟨timestamp, values⟩⟩
  · simp
  · simp
  simp only [List.drop_succ_cons, List.drop_zero, Option.some.injEq]
  constructor
  · intro hkept
    by_contra hmany
    have hreads := (hkept 0 (fun _ => 0) _ rfl).1 evset.eventFieldIndexes.length
    simp only [readValues_reads, List.mem_range'_1] at hreads
    omega
  · rintro hlength locationMax beyond entry rfl
    simp only [readValues_reads, length_readValues]
    refine ⟨fun i hi => ?_, ?_⟩
    · have := List.mem_range'_1.mp hi
      omega
    · exact (countP_cells hlength beyond).trans h

/-- **No line of the writer is read back, and the reader keeps to its arrays exactly when the line has no more values
than the selection array has cells.** -/
theorem trace_iff (typeName : ObjType → List Char) (o : Obj) (timestamp : Int) (samples : List ℚ)
    (selection : List Int) (locationMax : Nat) (beyond : Nat → Int) {events : List (List Char)} {evset : TraceEventset}
    (h : traceEventset events = some evset) (line : List Char) :
    ¬ Inverts typeName o timestamp samples selection locationMax beyond ∧
      (BoundsKept evset line ↔ (valueFields line).length ≤ evset.eventFieldIndexes.length) :=
  ⟨not_inverts typeName o timestamp samples selection locationMax beyond, bounds_iff (counted_traceEventset h) line⟩

/-- The eventset for field 1. -/
theorem traceEventset_one : traceEventset [['1']] = some ⟨[0, 1, 0, 0], 1⟩ := by
  have hgrow : grow 1 4 = 4 := by
    unfold grow
    exact if_neg (by decide)
  have hindex : atoiText ['1'] = 1 := by decide
  change (traceAddNamedEvent traceEventsetInit ['1']).bind some = _
  unfold traceAddNamedEvent
  simp only [hindex, traceEventsetInit, List.length_replicate, Int.toNat_one, hgrow]
  rfl

theorem trace_five_values :
    ¬ Inverts (fun _ => "PU".toList) (Topo.puObj 0) 5 [1] [1] 31 (fun _ => 0) ∧
      (BoundsKept ⟨[0, 1, 0, 0], 1⟩ "PU:0 PU:0 5 1 2 3 4 5\n".toList ↔
        (valueFields "PU:0 PU:0 5 1 2 3 4 5\n".toList).length ≤ 4) :=
  trace_iff _ _ _ _ _ _ _ traceEventset_one _

/-- The only sample is taken for the timestamp, and the fifth value of a line is selected by what lies behind the
array. -/
theorem sample_as_timestamp :
    (∃ entry,
      parseNextEntry 31 (cells [1] fun _ => 0) (outputLine (fun _ => "PU".toList) (Topo.puObj 0) 5 [1]) = some entry ∧
      entry.location = ['5'] ∧ entry.timestamp = 1 ∧ entry.values = []) ∧
    ¬ Inverts (fun _ => "PU".toList) (Topo.puObj 0) 5 [1] [1] 31 (fun _ => 0) ∧
    ∃ evset, traceEventset [['1']] = some evset ∧ ¬ BoundsKept evset "PU:0 PU:0 5 1 2 3 4 5\n".toList := by
  have hname : ' ' ∉ (fun _ : ObjType => "PU".toList) (Topo.puObj 0).type := by decide
  refine ⟨⟨_, parse_outputLine hname 5 1 [] 31 _, rfl, ?_, rfl⟩, not_inverts _ _ _ _ _ _ _, _, traceEventset_one, ?_⟩
  · have hround : roundEven 1000000 = 1000000 := by simp [roundEven]
    have hone : exponential 6 1 = "1.000000e+00".toList := by
      norm_num [exponential, hround, Int.log_one_right]
      decide
    rw [hone]
    decide
  · rw [bounds_iff (counted_traceEventset traceEventset_one)]
    decide

end Hmon
